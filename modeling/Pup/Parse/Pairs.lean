/-
Two texts in step.

What a text parses to changes with the text behind it and with its layout, and both are
questions about two texts.  A `Pairing` says how the texts are related in the code, at a depth
of brackets, and at the start of a line, and what it owes is about single characters, strings
and comments.  From that every rule of the grammar keeps the relation
(`Parallel.follows_rule`): that the rules are walked through once is the point of the module.

There are two things that a pairing cannot know of characters alone: whether a list of
arguments without parentheses goes on, and what stands in a class or a method without a body.
-/
import Pup.Lib.PegPairs
import Pup.Parse.Lexer

namespace Pup.Parse

open Peg
open Peg.Expression (opt plus star lit sat)

/-- A character of the code that is no more than itself, wherever it stands. -/
def isSimple (c : Char) : Bool := isPlain c && !isWhite c && c != ','

theorem isSimple_iff {c : Char} :
    isSimple c = true ↔ isPlain c = true ∧ isWhite c = false ∧ c ≠ ',' := by
  simp [isSimple, and_assoc]

/-- The second text goes on with the character if and only if the first one does. -/
structure Step (Exact Q : List Char → List Char → Prop) (c : Char) (s s' : List Char) : Prop where
  left : ∀ r, s = c :: r → ∃ r', s' = c :: r' ∧ Q r r' ∧ (Exact r r' → Exact s s')
  right : ∀ r', s' = c :: r' → ∃ r, s = c :: r

/-- How two texts are related. -/
structure Pairing where
  /-- the values that are parsed agree -/
  Exact : List Char → List Char → Prop
  /-- in the code, with so many brackets open -/
  Code : Nat → List Char → List Char → Prop
  /-- at the start of a line -/
  Start : Nat → List Char → List Char → Prop
  /-- white space is related too, at this depth -/
  Whole : Nat → Prop
  whole_succ : ∀ d, Whole (d + 1)
  start_of_code : ∀ {d s s'}, Code d s s' → Start d s s'
  blanks : ∀ {d s s'}, Start d s s' →
    Code d (s.dropWhile isBlank) (s'.dropWhile isBlank) ∧
      (Exact (s.dropWhile isBlank) (s'.dropWhile isBlank) → Exact s s')
  blank : ∀ {d s s'}, Whole d → Code d s s' → s.head?.any isBlank = s'.head?.any isBlank
  simple : ∀ {d s s' c}, isSimple c = true → Code d s s' → Step Exact (Code d) c s s'
  eol : ∀ {d s s' c}, isEol c = true → Code d s s' → Step Exact (Start d) c s s'
  opening : ∀ {d s s' c}, opening c = true → Code d s s' → Step Exact (Code (d + 1)) c s s'
  closing : ∀ {d s s' c}, closing c = true → Code (d + 1) s s' → Step Exact (Code d) c s s'
  comma : ∀ {d s s'}, Code (d + 1) s s' → Step Exact (Code (d + 1)) ',' s s'
  comment : ∀ {d s s'}, Code d s s' → Step Exact (fun r r' =>
    Code d (r.dropWhile (· != '\n')) (r'.dropWhile (· != '\n')) ∧
      (Exact (r.dropWhile (· != '\n')) (r'.dropWhile (· != '\n')) → Exact r r')) '#' s s'
  string : ∀ {d s s' v t}, Code d s s' → readString s = some (v, t) →
    ∃ t', readString s' = some (v, t') ∧ Code d t t' ∧ (Exact t t' → Exact s s')
  noString : ∀ {d s s'}, Code d s s' → readString s = none → readString s' = none

namespace Pairing

variable {P : Pairing} {d : Nat} {s s' : List Char}

/-! ### White space -/

theorem head_isBlank_dropWhile (s : List Char) {c : Char} {r : List Char}
    (h : s.dropWhile isBlank = c :: r) : isBlank c = false := by
  simpa [h] using head_dropWhile isBlank s

theorem skipSpace_dropWhile (s : List Char) :
    skipSpace false (s.dropWhile isBlank) = skipSpace false s := by
  induction s with
  | nil => rfl
  | cons c s ih =>
      by_cases hc : isBlank c = true
      · have hw : isWhite c = true := by simp [isWhite, hc]
        simpa [hc, skipSpace, hw] using ih
      · simp [hc]

/-- A related text begins with the same character, as far as white space goes. -/
theorem not_space (h : P.Code d s s') (hblank : s'.head?.any isBlank = false)
    (hs : s.head?.any beginsSpace = false) : s'.head?.any beginsSpace = false := by
  cases s' with
  | nil => rfl
  | cons c r' =>
      have hc : isBlank c = false := by simpa using hblank
      by_cases heol : isEol c = true
      · obtain ⟨r, rfl⟩ := (P.eol heol h).right r' rfl
        simp [beginsSpace, isWhite, heol] at hs
      · by_cases hhash : c = '#'
        · subst hhash
          obtain ⟨r, rfl⟩ := (P.comment h).right r' rfl
          simp [beginsSpace] at hs
        · simp [beginsSpace, isWhite, hc, heol, hhash]

/-- White space and comments are skipped together. -/
theorem skipSpace (h : P.Start d s s') :
    P.Code d (Parse.skipSpace false s) (Parse.skipSpace false s') ∧
      (P.Exact (Parse.skipSpace false s) (Parse.skipSpace false s') → P.Exact s s') := by
  induction hn : s.length using Nat.strong_induction_on generalizing s s' with
  | _ n ih =>
      obtain ⟨hcode, hexact⟩ := P.blanks h
      have hlen : (s.dropWhile isBlank).length ≤ s.length := (List.dropWhile_suffix _).length_le
      rw [← skipSpace_dropWhile s, ← skipSpace_dropWhile s']
      have hblank' := head_dropWhile isBlank s'
      generalize s'.dropWhile isBlank = u' at hcode hexact hblank' ⊢
      cases hu : s.dropWhile isBlank with
      | nil =>
          rw [hu] at hcode hexact
          rw [skipSpace_of_head (P.not_space hcode hblank' rfl)]
          exact ⟨hcode, hexact⟩
      | cons c r =>
          rw [hu] at hcode hexact hlen
          rw [List.length_cons] at hlen
          have hc := head_isBlank_dropWhile s hu
          by_cases heol : isEol c = true
          · have hw : isWhite c = true := by simp [isWhite, heol]
            obtain ⟨r', rfl, hr, hback⟩ := (P.eol heol hcode).left r rfl
            obtain ⟨hskip, hexact'⟩ := ih r.length (by omega) hr rfl
            simp only [Parse.skipSpace, hw, if_true, Bool.false_eq_true, if_false]
            exact ⟨hskip, fun h => hexact (hback (hexact' h))⟩
          · have hw : isWhite c = false := by simp [isWhite, hc, heol]
            by_cases hhash : c = '#'
            · subst hhash
              obtain ⟨r', rfl, ⟨hr, hr'⟩, hback⟩ := (P.comment hcode).left r rfl
              have hlen' : (r.dropWhile (· != '\n')).length ≤ r.length :=
                (List.dropWhile_suffix _).length_le
              obtain ⟨hskip, hexact'⟩ := ih _ (by omega) (P.start_of_code hr) rfl
              simp only [Parse.skipSpace, hw, if_true, Bool.false_eq_true, if_false,
                skipSpace_comment]
              exact ⟨hskip, fun h => hexact (hback (hr' (hexact' h)))⟩
            · have hs : (c :: r).head?.any beginsSpace = false := by
                simp [beginsSpace, hw, hhash]
              rw [skipSpace_of_head hs, skipSpace_of_head (P.not_space hcode hblank' hs)]
              exact ⟨hcode, hexact⟩

/-- Lines end together. -/
theorem lineEnd (h : P.Start d s s') :
    (∀ t, Parse.lineEnd s = some t → ∃ t', Parse.lineEnd s' = some t' ∧ P.Start d t t' ∧
      (P.Exact t t' → P.Exact s s')) ∧ (Parse.lineEnd s = none → Parse.lineEnd s' = none) := by
  obtain ⟨hcode, hexact⟩ := P.blanks h
  unfold Parse.lineEnd
  generalize s.dropWhile isBlank = u, s'.dropWhile isBlank = u' at hcode hexact ⊢
  -- where one text is a line end or a comment, the other one is too
  have hother : ∀ c r', u' = c :: r' → isEol c = true ∨ c = '#' → ∃ r, u = c :: r := by
    rintro c r' rfl (hc | rfl)
    · exact (P.eol hc hcode).right r' rfl
    · exact (P.comment hcode).right r' rfl
  cases u with
  | nil =>
      refine ⟨fun t ht => (nomatch ht), fun _ => ?_⟩
      cases u' with
      | nil => rfl
      | cons c r' =>
          by_cases hc : isEol c = true ∨ c = '#'
          · obtain ⟨r, hr⟩ := hother c r' rfl hc
            cases hr
          · obtain ⟨heol, hhash⟩ := not_or.mp hc
            simp [heol, hhash]
  | cons c r =>
      by_cases heol : isEol c = true
      · obtain ⟨r', rfl, hr, hback⟩ := (P.eol heol hcode).left r rfl
        simp only [heol, if_true]
        refine ⟨fun t ht => ?_, fun h => nomatch h⟩
        cases ht
        exact ⟨r', rfl, hr, fun h => hexact (hback h)⟩
      · by_cases hhash : c = '#'
        · subst hhash
          obtain ⟨r', rfl, ⟨hr, hr'⟩, hback⟩ := (P.comment hcode).left r rfl
          simp only [if_neg heol, if_true]
          have hstop := head_dropWhile (· != '\n') r
          have hstop' := head_dropWhile (· != '\n') r'
          generalize r.dropWhile (· != '\n') = v, r'.dropWhile (· != '\n') = v'
            at hr hr' hstop hstop' ⊢
          cases v with
          | nil =>
              refine ⟨fun t ht => (nomatch ht), fun _ => ?_⟩
              cases v' with
              | nil => rfl
              | cons e w' =>
                  obtain rfl : e = '\n' := by simpa using hstop'
                  obtain ⟨w, hw⟩ := (P.eol rfl hr).right w' rfl
                  cases hw
          | cons e w =>
              obtain rfl : e = '\n' := by simpa using hstop
              obtain ⟨w', rfl, hw, hback'⟩ := (P.eol rfl hr).left w rfl
              refine ⟨fun t ht => ?_, fun h => nomatch h⟩
              cases ht
              exact ⟨w', rfl, hw, fun h => hexact (hback (hr' (hback' h)))⟩
        · simp only [if_neg heol, if_neg hhash]
          refine ⟨fun t ht => (nomatch ht), fun _ => ?_⟩
          cases u' with
          | nil => rfl
          | cons e r' =>
              by_cases he : isEol e = true ∨ e = '#'
              · obtain ⟨v, hv⟩ := hother e r' rfl he
                cases hv
                rcases he with he | he
                · exact absurd he heol
                · exact absurd he hhash
              · obtain ⟨heol', hhash'⟩ := not_or.mp he
                simp [heol', hhash']

theorem skipLines (h : P.Start d s s') :
    P.Start d (Parse.skipLines s) (Parse.skipLines s') ∧
      (P.Exact (Parse.skipLines s) (Parse.skipLines s') → P.Exact s s') := by
  induction hn : s.length using Nat.strong_induction_on generalizing s s' with
  | _ n ih =>
      obtain ⟨hsome, hnone⟩ := P.lineEnd h
      cases hs : Parse.lineEnd s with
      | none =>
          rw [skipLines_of_none hs, skipLines_of_none (hnone hs)]
          exact ⟨h, id⟩
      | some t =>
          obtain ⟨t', hs', ht, hback⟩ := hsome t hs
          have hlt := lineEnd_length hs
          obtain ⟨hskip, hexact⟩ := ih t.length (by omega) ht rfl
          rw [skipLines_of_some hs, skipLines_of_some hs']
          exact ⟨hskip, fun h => hback (hexact h)⟩

/-! ### Terminals and white space -/

variable {bad : Rule → List Char → Prop} {n : Nat}

/-- White space that may be missing leads from related texts to related texts. -/
theorem follows_white {α : Type} {e : Exp α} {f : List Char → List Char}
    {A B : List Char → List Char → Prop} (he : ∀ s, ∃ v, parse grammar e s = .ok v (f s))
    (h : ∀ {s s'}, A s s' → B (f s) (f s') ∧ (P.Exact (f s) (f s') → P.Exact s s')) :
    Follows grammar bad P.Exact n A (fun _ _ => True) e B := by
  refine .of_parse fun s s' hs => ?_
  obtain ⟨v, hv⟩ := he s
  obtain ⟨v', hv'⟩ := he s'
  obtain ⟨hB, hback⟩ := h hs
  rw [hv, hv']
  refine ⟨fun a t hr => ?_, fun h => nomatch h⟩
  cases hr
  exact ⟨v', f s', rfl, hB, fun h => ⟨hback h, trivial⟩⟩

theorem follows_indent :
    Follows grammar bad P.Exact n (P.Start d) (fun _ _ => True) optBlank (P.Code d) :=
  follows_white parse_optBlank P.blanks

theorem follows_optBlank :
    Follows grammar bad P.Exact n (P.Code d) (fun _ _ => True) optBlank (P.Code d) :=
  follows_white parse_optBlank fun h => P.blanks (P.start_of_code h)

theorem follows_optSpace :
    Follows grammar bad P.Exact n (P.Code d) (fun _ _ => True) optSpace (P.Code d) :=
  follows_white parse_optSpace fun h => P.skipSpace (P.start_of_code h)

theorem head_space (hd : P.Whole d) (h : P.Code d s s') :
    s.head?.any beginsSpace = s'.head?.any beginsSpace := by
  have hblank := P.blank hd h
  cases hs : s.head?.any beginsSpace with
  | true =>
      cases s with
      | nil => cases hs
      | cons c r =>
          simp only [List.head?_cons, Option.any_some, beginsSpace, isWhite, Bool.or_eq_true,
            beq_iff_eq] at hs hblank
          rcases hs with (hc | hc) | rfl
          · rw [hc] at hblank
            cases s' with
            | nil => cases hblank
            | cons c' r' =>
                have hc' : isBlank c' = true := hblank.symm
                simp [beginsSpace, isWhite, hc']
          · obtain ⟨r', rfl, -⟩ := (P.eol hc h).left r rfl
            simp [beginsSpace, isWhite, hc]
          · obtain ⟨r', rfl, -⟩ := (P.comment h).left r rfl
            rfl
  | false =>
      refine (P.not_space h ?_ hs).symm
      rw [← hblank]
      cases s with
      | nil => rfl
      | cons c r =>
          simp only [List.head?_cons, Option.any_some, beginsSpace, isWhite,
            Bool.or_eq_false_iff] at hs
          exact hs.1.1

theorem follows_space (hd : P.Whole d) :
    Follows grammar bad P.Exact n (P.Code d) Eq (rule .space) (P.Code d) := by
  refine .of_parse fun s s' hs => ?_
  obtain ⟨hcode, hback⟩ := P.skipSpace (P.start_of_code hs)
  rw [parse_space, parse_space, ← P.head_space hd hs]
  by_cases hspace : s.head?.any beginsSpace = true
  · rw [if_pos hspace, if_pos hspace]
    refine ⟨fun a t hr => ?_, fun h => nomatch h⟩
    cases hr
    exact ⟨(), _, rfl, hcode, fun h => ⟨hback h, rfl⟩⟩
  · rw [if_neg hspace, if_neg hspace]
    exact ⟨fun a t hr => (nomatch hr), fun _ => rfl⟩

theorem follows_white_noeol (hd : P.Whole d) :
    Follows grammar bad P.Exact n (P.Code d) Eq (rule .white_noeol) (P.Code d) := by
  refine .of_parse fun s s' hs => ?_
  obtain ⟨hcode, hback⟩ := P.blanks (P.start_of_code hs)
  rw [parse_white_noeol, parse_white_noeol, ← P.blank hd hs]
  by_cases hblank : s.head?.any isBlank = true
  · rw [if_pos hblank, if_pos hblank]
    refine ⟨fun a t hr => ?_, fun h => nomatch h⟩
    cases hr
    exact ⟨(), _, rfl, hcode, fun h => ⟨hback h, rfl⟩⟩
  · rw [if_neg hblank, if_neg hblank]
    exact ⟨fun a t hr => (nomatch hr), fun _ => rfl⟩

theorem follows_space_eol :
    Follows grammar bad P.Exact n (P.Start d) Eq (rule .space_eol) (P.Start d) := by
  refine .of_parse fun s s' hs => ?_
  obtain ⟨hsome, hnone⟩ := P.lineEnd hs
  rw [parse_space_eol, parse_space_eol]
  cases hl : Parse.lineEnd s with
  | none =>
      rw [hnone hl]
      exact ⟨fun a t hr => (nomatch hr), fun _ => rfl⟩
  | some u =>
      obtain ⟨u', hl', hu, hback⟩ := hsome u hl
      obtain ⟨hskip, hback'⟩ := P.skipLines hu
      rw [hl']
      refine ⟨fun a t hr => ?_, fun h => nomatch h⟩
      cases hr
      exact ⟨(), _, rfl, hskip, fun h => ⟨hback (hback' h), rfl⟩⟩

/-- A character of a kind. -/
theorem follows_sat {p : Char → Bool} {A B : List Char → List Char → Prop}
    (h : ∀ {s s' c}, p c = true → A s s' → Step P.Exact B c s s') :
    Follows grammar bad P.Exact n A Eq (sat p) B := by
  refine .of_parse fun s s' hs => ⟨fun c t hr => ?_, fun hr => ?_⟩
  · cases s with
    | nil => cases hr
    | cons c r =>
        by_cases hc : p c = true
        · rw [parse_sat_cons, if_pos hc] at hr
          cases hr
          obtain ⟨t', rfl, ht, hback⟩ := (h hc hs).left _ rfl
          exact ⟨_, t', by rw [parse_sat_cons, if_pos hc], ht, fun h => ⟨hback h, rfl⟩⟩
        · rw [parse_sat_cons, if_neg hc] at hr
          cases hr
  · cases s' with
    | nil => rfl
    | cons c r' =>
        by_cases hc : p c = true
        · obtain ⟨r, rfl⟩ := (h hc hs).right r' rfl
          rw [parse_sat_cons, if_pos hc] at hr
          cases hr
        · rw [parse_sat_cons, if_neg hc]

theorem follows_lit {w : String} {A B : List Char → List Char → Prop}
    (hsome : ∀ {s s' t}, A s s' → dropWord w.toList s = some t →
      ∃ t', dropWord w.toList s' = some t' ∧ B t t' ∧ (P.Exact t t' → P.Exact s s'))
    (hnone : ∀ {s s'}, A s s' → dropWord w.toList s = none → dropWord w.toList s' = none) :
    Follows grammar bad P.Exact n A Eq (lit w) B := by
  refine .of_parse fun s s' hs => ?_
  rw [parse_lit, parse_lit]
  cases hw : dropWord w.toList s with
  | none =>
      rw [hnone hs hw]
      exact ⟨fun a t hr => (nomatch hr), fun _ => rfl⟩
  | some t =>
      obtain ⟨t', hw', ht, hback⟩ := hsome hs hw
      rw [hw']
      refine ⟨fun a t hr => ?_, fun h => nomatch h⟩
      cases hr
      exact ⟨w, t', rfl, ht, fun h => ⟨hback h, rfl⟩⟩

/-- A terminal of one character. -/
theorem follows_char {w : String} {c : Char} {A B : List Char → List Char → Prop}
    (hw : w.toList = [c]) (h : ∀ {s s'}, A s s' → Step P.Exact B c s s') :
    Follows grammar bad P.Exact n A Eq (lit w) B := by
  refine follows_lit (fun {s s' t} hs ht => ?_) (fun {s s'} hs hnone => ?_)
  · rw [hw] at ht ⊢
    obtain ⟨t', rfl, hB, hback⟩ := (h hs).left t (dropWord_eq_some_iff.mp ht)
    exact ⟨t', dropWord_append [c] t', hB, hback⟩
  · rw [hw] at hnone ⊢
    by_contra hsome
    obtain ⟨r', hr'⟩ := Option.ne_none_iff_exists'.mp hsome
    obtain ⟨r, rfl⟩ := (h hs).right r' (dropWord_eq_some_iff.mp hr')
    exact Option.some_ne_none r ((dropWord_append [c] r).symm.trans hnone)

theorem follows_opening {w : String} {c : Char} (hw : w.toList = [c]) (hc : Parse.opening c = true) :
    Follows grammar bad P.Exact n (P.Code d) Eq (lit w) (P.Code (d + 1)) :=
  follows_char hw (P.opening hc)

theorem follows_closing {w : String} {c : Char} (hw : w.toList = [c]) (hc : Parse.closing c = true) :
    Follows grammar bad P.Exact n (P.Code (d + 1)) Eq (lit w) (P.Code d) :=
  follows_char hw (P.closing hc)

/-- A comma in brackets. -/
theorem follows_comma :
    Follows grammar bad P.Exact n (P.Code (d + 1)) Eq (lit ",") (P.Code (d + 1)) :=
  follows_char (by decide) P.comma

theorem dropWord_simple {w : List Char} (hw : ∀ c ∈ w, isSimple c = true) (h : P.Code d s s') :
    (∀ t, dropWord w s = some t → ∃ t', dropWord w s' = some t' ∧ P.Code d t t' ∧
      (P.Exact t t' → P.Exact s s')) ∧ (dropWord w s = none → dropWord w s' = none) := by
  induction w generalizing s s' with
  | nil =>
      constructor
      · intro t ht
        cases ht
        exact ⟨s', rfl, h, id⟩
      · intro hnone
        cases hnone
  | cons c w ih =>
      have hstep := P.simple (hw c (by simp)) h
      have hrest := fun {r r'} (hr : P.Code d r r') => ih (fun c hc => hw c (by simp [hc])) hr
      have hcons : ∀ r, dropWord (c :: w) (c :: r) = dropWord w r := fun r => by simp [dropWord]
      by_cases hs : ∃ r, s = c :: r
      · obtain ⟨r, rfl⟩ := hs
        obtain ⟨r', rfl, hr, hback⟩ := hstep.left r rfl
        obtain ⟨hsome, hnone⟩ := hrest hr
        rw [hcons, hcons]
        refine ⟨fun t ht => ?_, hnone⟩
        obtain ⟨t', ht', hcode, hback'⟩ := hsome t ht
        exact ⟨t', ht', hcode, fun h => hback (hback' h)⟩
      · have hnone : ∀ u : List Char, (¬∃ r, u = c :: r) → dropWord (c :: w) u = none := by
          intro u hu
          cases u with
          | nil => rfl
          | cons e u =>
              have hce : c ≠ e := by
                rintro rfl
                exact hu ⟨u, rfl⟩
              simp [dropWord, hce]
        have hs' : ¬∃ r, s' = c :: r := by
          rintro ⟨r', hr'⟩
          exact hs (hstep.right r' hr')
        rw [hnone s hs, hnone s' hs']
        refine ⟨fun t ht => ?_, fun _ => rfl⟩
        cases ht

/-- A terminal of simple characters. -/
theorem follows_word {w : String} (hw : ∀ c ∈ w.toList, isSimple c = true) :
    Follows grammar bad P.Exact n (P.Code d) Eq (lit w) (P.Code d) :=
  follows_lit (fun hs ht => (dropWord_simple hw hs).1 _ ht)
    (fun hs hnone => (dropWord_simple hw hs).2 hnone)

theorem follows_quoted_string :
    Follows grammar bad P.Exact n (P.Code d) Eq (rule .quoted_string) (P.Code d) := by
  refine .of_parse fun s s' hs => ?_
  rw [parse_quoted_string, parse_quoted_string]
  cases hr : readString s with
  | none =>
      rw [P.noString hs hr]
      exact ⟨fun a t hr => (nomatch hr), fun _ => rfl⟩
  | some p =>
      obtain ⟨t', hr', hcode, hback⟩ := P.string hs hr
      rw [hr']
      refine ⟨fun a t hr => ?_, fun h => nomatch h⟩
      cases hr
      exact ⟨_, t', rfl, hcode, fun h => ⟨hback h, rfl⟩⟩

end Pairing

/-! ### Rules -/

/-- A class or a method up to its body. -/
abbrev Head : Type 1 := Exp (Option (Option (List Stmt)) → Option Stmt)

def classHead : Head :=
  (fun name e s => return .classDef name (← optValue e) (← optValue s)) <$>
    (.lit "class" *> rule .white_noeol *> rule .constant
      <* (rule .white_noeol <|> .notAt (rule .extends_))) <*> opt (rule .extends_)
      <* rule .space_eol

def methodHead : Head :=
  (fun name m s => return .methodDef name (← optValue m) (← optValue s)) <$>
    (.lit "def" *> rule .space *> rule .thename <* optBlank) <*>
      opt (rule .method_params) <* rule .space_eol

/-- The next thing in the text is no `end`. -/
def NoEnd (t : List Char) : Prop := dropWord "end".toList (skipSpace false t) = none

/-- A pairing that all rules keep. -/
structure Parallel extends Pairing where
  /-- where a rule is not called -/
  bad : Rule → List Char → Prop
  tail : ∀ {n}, (∀ d, Follows grammar bad Exact n (Code d) Eq (rule .expression) (Code d)) →
    ∀ d, Follows grammar bad Exact n (Code d) Eq
      (star (optBlank *> lit "," *> optSpace *> rule .expression)) (Code d)
  classBody : ∀ {d s f t t'}, ¬bad .classdef s → parse grammar classHead s = .ok f t →
    Start d t t' → Code d t t' ∨ NoEnd t
  methodBody : ∀ {d s f t t'}, ¬bad .methoddef s → parse grammar methodHead s = .ok f t →
    Start d t t' → Code d t t' ∨ NoEnd t

/-- The rules of which something is said: the others are only called by white space and
strings, and by no rule at all. -/
def walked : Rule → Bool
  | .unit | .eof | .white | .comment_to_eol | .double_quoted_string | .single_quoted_string => false
  | _ => true

/-- The rules that need white space to be related. -/
def needsWhole : Rule → Bool
  | .statements | .statement | .classdef | .methoddef | .if_ | .theelse | .begin_ | .therescue
  | .theensure | .while_ | .space | .white_noeol => true
  | _ => false

/-- The relation in front of what a rule reads. -/
abbrev Pairing.before (P : Pairing) (d : Nat) : Rule → List Char → List Char → Prop
  | .statements => P.Start d
  | .param_list | .block_params => P.Code (d + 1)
  | _ => P.Code d

/-- And the one behind it. -/
abbrev Pairing.after (P : Pairing) (d : Nat) : Rule → List Char → List Char → Prop
  | .space_eol => P.Start d
  | .param_list | .block_params => P.Code (d + 1)
  | _ => P.Code d

namespace Parallel

variable {P : Parallel} {n d : Nat}

/-- Rules that call one another so many times keep the relation. -/
def Walked (P : Parallel) (n : Nat) : Prop :=
  ∀ r d, walked r = true → (needsWhole r = true → P.Whole d) →
    Follows grammar P.bad P.Exact n (P.before d r) Eq (rule r) (P.after d r)

open Pairing

abbrev Keeps (P : Parallel) (n d : Nat) {α : Type} (e : Exp α) : Prop :=
  Follows grammar P.bad P.Exact n (P.Code d) Eq e (P.Code d)

theorem keeps_binaryRule {class_ : BinaryClass} {left right : Exp (Option Expr)}
    {op : Exp String} (hleft : P.Keeps n d left) (hop : P.Keeps n d op)
    (hright : P.Keeps n d right) : P.Keeps n d (binaryRule class_ left op right) := by
  have hoperand := (hleft.map_eq (f := fun l o r => do
    return Expr.binary class_ (← l) o (← r))).seqLeft follows_optBlank
  exact (((hoperand.seq_eq hop).seqLeft follows_optSpace).seq_eq hright).orElse hleft

theorem keeps_word {w : String} (hw : ∀ c ∈ w.toList, isSimple c = true) : P.Keeps n d (lit w) :=
  follows_word hw

theorem keeps_words {w w' : String} (hw : ∀ c ∈ w.toList, isSimple c = true)
    (hw' : ∀ c ∈ w'.toList, isSimple c = true) : P.Keeps n d (lit w <|> lit w') :=
  (keeps_word hw).orElse (keeps_word hw')

theorem keeps_notAt (w : String) (hw : ∀ c ∈ w.toList, isSimple c = true) :
    Follows grammar P.bad P.Exact n (P.Code d) (fun _ _ => True) (.notAt (lit w)) (P.Code d) :=
  (keeps_word hw).notAt

theorem keeps_assign_op : P.Keeps n d (grammar .assign_op) := by
  refine .orElse ((keeps_notAt "=>" (by decide)).seqRight (keeps_word (by decide))) ?_
  repeat' apply Follows.orElse
  all_goals exact keeps_word (by decide)

theorem isSimple_of_identRest {c : Char} (h : identRest c = true) : isSimple c = true := by
  have hplain := isPlain_of_identRest h
  have hwhite : isWhite c = false := by
    have hspace := beginsSpace_of_identRest h
    simp only [beginsSpace, Bool.or_eq_false_iff] at hspace
    exact hspace.1
  have hcomma : c ≠ ',' := by
    rintro rfl
    exact absurd h (by decide)
  simp [isSimple, hplain, hwhite, hcomma]

theorem isSimple_of_isDigit {c : Char} (h : c.isDigit = true) : isSimple c = true :=
  isSimple_of_identRest (by simp [identRest, Char.isAlphanum, h])

theorem keeps_sat {p : Char → Bool} (hp : ∀ c, p c = true → isSimple c = true) :
    P.Keeps n d (sat p) := follows_sat fun hc hs => P.simple (hp _ hc) hs

theorem keeps_identRest : P.Keeps n d (star (sat identRest)) :=
  (keeps_sat fun _ => isSimple_of_identRest).star_eq

theorem keeps_identStart : P.Keeps n d (sat identStart) :=
  keeps_sat fun _ hc => isSimple_of_identRest (identRest_of_identStart hc)

theorem keeps_constant : P.Keeps n d (grammar .constant) := by
  have hupper : P.Keeps n d (sat Char.isUpper) :=
    keeps_sat fun _ hc => isSimple_of_identRest (identRest_of_isUpper hc)
  exact .seq_eq (.map_eq hupper) keeps_identRest

theorem keeps_thename : P.Keeps n d (grammar .thename) := by
  have hbarred := ((keeps_notAt (P := P) (n := n) (d := d) "end" (by decide)).seqRight
    (keeps_notAt "else" (by decide))).seqRight (keeps_notAt "rescue" (by decide))
  exact hbarred.seqRight (.seq_eq (.map_eq keeps_identStart) keeps_identRest)

theorem keeps_instvar : P.Keeps n d (grammar .instvar) :=
  (keeps_word (by decide)).seqRight (.seq_eq (.map_eq keeps_identStart) keeps_identRest)

theorem keeps_number : P.Keeps n d (grammar .number) := by
  refine .map_eq (.orElse (.seq_eq (.map_eq (keeps_sat fun c hc => ?_)) ?_) ?_)
  · exact isSimple_of_isDigit (by simp_all)
  · exact (keeps_sat fun _ => isSimple_of_isDigit).star_eq
  · exact keeps_word (by decide)

variable (ih : P.Walked n)

include ih

theorem keeps_left_hand_side_step : P.Keeps n d
    (lit "." *> rule .invoke <|> lit "[" *> rule .expression <* lit "]" : Exp (Option Expr)) := by
  refine .orElse ((keeps_word (by decide)).seqRight (ih .invoke d rfl nofun)) ?_
  refine .seqLeft (.seqRight (follows_opening (c := '[') (by decide) rfl) ?_)
    (follows_closing (c := ']') (by decide) rfl)
  exact ih .expression (d + 1) rfl nofun

theorem keeps_lookup : P.Keeps n d (grammar .lookup) :=
  (((ih .primary d rfl nofun).map_eq).seq_eq (keeps_left_hand_side_step ih).plus_eq).orElse
    (ih .primary d rfl nofun)

theorem keeps_primary : P.Keeps n d (grammar .primary) := by
  refine .orElse (ih .parenthesis d rfl nofun) (.orElse (ih .number d rfl nofun) ?_)
  refine .orElse (ih .bool d rfl nofun) (.orElse (ih .quoted_string d rfl nofun) ?_)
  exact .orElse (ih .invoke d rfl nofun) (ih .instvar d rfl nofun).map_eq

theorem keeps_left_hand_side : P.Keeps n d (grammar .left_hand_side) := by
  have hstem := ih .lhs_stem d rfl nofun
  exact (hstem.seqRight (keeps_left_hand_side_step ih).plus_eq).map_eq.orElse hstem

theorem keeps_assignment : P.Keeps n d (grammar .assignment) := by
  have hleft := ((ih .left_hand_side d rfl nofun).seqLeft follows_optBlank).map_eq
    (f := fun left op right => do return Expr.assign (← left) op (← right))
  refine .orElse ?_ (ih .conditional d rfl nofun)
  exact ((hleft.seq_eq (ih .assign_op d rfl nofun)).seqLeft follows_optSpace).seq_eq
    (ih .assignment d rfl nofun)

theorem keeps_conditional : P.Keeps n d (grammar .conditional) := by
  have hquestion := (((ih .logical d rfl nofun).seqRight follows_optBlank).seqRight
    (keeps_word (w := "?") (by decide))).seqRight follows_optSpace
  have hcolon := (((hquestion.seqRight (ih .assignment d rfl nofun)).seqRight
    follows_optBlank).seqRight (keeps_word (w := ":") (by decide))).seqRight follows_optSpace
  exact (hcolon.seqRight (ih .assignment d rfl nofun)).map_eq.orElse (ih .logical d rfl nofun)

theorem keeps_invoke : P.Keeps n d (grammar .invoke) := by
  have hname := ((ih .named_value d rfl nofun).seqLeft follows_optBlank).map_eq
    (f := fun n a b => do return Expr.varOrInvoke n (← optValue a) (← optValue b) none)
  have hargs : P.Keeps n d (opt (rule .args)) := (ih .args d rfl nofun).opt_eq fun _ _ => id
  have hblock : P.Keeps n d (opt (rule .block)) := (ih .block d rfl nofun).opt_eq fun _ _ => id
  exact ((hname.seq_eq hargs).seqLeft follows_optBlank).seq_eq hblock

theorem keeps_parenthesis : P.Keeps n d (grammar .parenthesis) := by
  refine .seqLeft (.seqRight (follows_opening (c := '(') (by decide) rfl) ?_)
    (follows_closing (c := ')') (by decide) rfl)
  exact ih .expression (d + 1) rfl nofun

theorem keeps_parenthesised_args : P.Keeps n d (grammar .parenthesised_args) := by
  have hexp := ih .expression (d + 1) rfl nofun
  refine .map_eq (.seqLeft (.seqRight (follows_opening (c := '(') (by decide) rfl) ?_)
    (follows_closing (c := ')') (by decide) rfl))
  exact (hexp.map_eq.seq_eq (follows_comma.seqRight hexp).star_eq).opt_eq fun _ _ => id

theorem keeps_unparenthesised_args : P.Keeps n d (grammar .unparenthesised_args) := by
  have hexp := fun d => ih .expression d rfl nofun
  exact ((hexp d).map_eq).seq_eq (P.tail hexp d)

theorem keeps_block : P.Keeps n d (grammar .block) := by
  have hopen : Follows grammar P.bad P.Exact n (P.Code d) Eq (lit "\x7b") (P.Code (d + 1)) :=
    follows_opening (c := '\x7b') (by decide) rfl
  have hparams : P.Keeps n (d + 1) (opt (rule .block_params)) :=
    (ih .block_params d rfl nofun).opt_eq fun _ _ => id
  have hbody : P.Keeps n (d + 1) (opt (rule .statements)) :=
    ((ih .statements (d + 1) rfl fun _ => P.whole_succ d).before fun _ _ => P.start_of_code).opt_eq
      fun _ _ => id
  exact (((hopen.seqRight follows_optSpace).seqRight hparams).map_eq.seq_eq hbody).seqLeft
    (follows_closing (c := '\x7d') (by decide) rfl)

theorem keeps_param : P.Keeps n d (grammar .param) := by
  have hinit : P.Keeps n d (opt (lit "=" *> rule .expression)) :=
    ((keeps_word (by decide)).seqRight (ih .expression d rfl nofun)).opt_eq fun _ _ => id
  exact ((ih .thename d rfl nofun).map_eq).seq_eq hinit

theorem keeps_param_list : P.Keeps n (d + 1) (grammar .param_list) := by
  have hmore : P.Keeps n (d + 1) (lit "," *> optSpace *> rule .param) :=
    (follows_comma.seqRight follows_optSpace).seqRight (ih .param (d + 1) rfl nofun)
  exact ((ih .param (d + 1) rfl nofun).map_eq).seq_eq hmore.star_eq

theorem keeps_method_params : P.Keeps n d (grammar .method_params) :=
  .seqLeft (.seqRight (follows_opening (c := '(') (by decide) rfl) (ih .param_list d rfl nofun))
    (follows_closing (c := ')') (by decide) rfl)

theorem keeps_block_params : P.Keeps n (d + 1) (grammar .block_params) :=
  .seqLeft (.seqRight (keeps_word (by decide)) (ih .param_list d rfl nofun))
    (keeps_word (by decide))

/-! ### Statements -/

variable (hd : P.Whole d)

include hd

theorem follows_statements :
    Follows grammar P.bad P.Exact n (P.Start d) Eq (grammar .statements) (P.Code d) := by
  have hstatement := ih .statement d rfl fun _ => hd
  have hspace : Follows grammar P.bad P.Exact n (P.Start d) (fun _ _ => True) optSpace (P.Code d) :=
    follows_white parse_optSpace P.skipSpace
  have hspaces : Follows grammar P.bad P.Exact n (P.Start d) (fun _ _ => True)
      (star (rule .space)) (P.Code d) := follows_white parse_spaces P.skipSpace
  have hmore : P.Keeps n d (rule .space_eol *> star (rule .space) *> rule .statement) :=
    ((ih .space_eol d rfl nofun).seqRight hspaces).seqRight hstatement
  exact (hspace.seqRight hstatement).map_eq.seq_eq hmore.star_eq

/-- Statements in the code. -/
theorem keeps_statements : P.Keeps n d (rule .statements) :=
  (ih .statements d rfl fun _ => hd).before fun _ _ => P.start_of_code

theorem keeps_space : P.Keeps n d (rule .space) := ih .space d rfl fun _ => hd

theorem keeps_white_noeol : P.Keeps n d (rule .white_noeol) := ih .white_noeol d rfl fun _ => hd

theorem keeps_statement : P.Keeps n d (grammar .statement) := by
  have hstatement : ∀ r, walked r = true →
      Follows grammar P.bad P.Exact n (P.before d r) Eq (rule r) (P.after d r) :=
    fun r hr => ih r d hr fun _ => hd
  refine .orElse (hstatement .if_ rfl) (.orElse (hstatement .classdef rfl) ?_)
  refine .orElse (hstatement .methoddef rfl) (.orElse (hstatement .begin_ rfl) ?_)
  exact .orElse (hstatement .while_ rfl) (hstatement .expression rfl).map_eq

/-- The statements of a part, on lines of their own. -/
theorem follows_body : Follows grammar P.bad P.Exact n (P.Start d) Eq
    (optBlank *> rule .statements <* rule .space) (P.Code d) :=
  (follows_indent.seqRight (keeps_statements ih hd)).seqLeft (keeps_space ih hd)

/-- A part behind its keyword. -/
theorem keeps_part {w : String} (hw : ∀ c ∈ w.toList, isSimple c = true) :
    P.Keeps n d (lit w *> rule .space *> rule .statements <* rule .space) :=
  (((keeps_word hw).seqRight (keeps_space ih hd)).seqRight (keeps_statements ih hd)).seqLeft
    (keeps_space ih hd)

theorem keeps_if : P.Keeps n d (grammar .if_) := by
  have hcond := ((((keeps_word (w := "if") (by decide)).seqRight (keeps_space ih hd)).seqRight
    (ih .expression d rfl nofun)).seqLeft (ih .space_eol d rfl nofun)).map_eq
      (f := fun cond ifbk elsebk => do
        return Stmt.ifStmt (← cond) (← ifbk) (← optValue elsebk))
  have helse : P.Keeps n d (opt (rule .theelse)) :=
    (ih .theelse d rfl fun _ => hd).opt_eq fun _ _ => id
  exact ((hcond.seq_eq (follows_body ih hd)).seq_eq helse).seqLeft (keeps_word (by decide))

theorem keeps_while : P.Keeps n d (grammar .while_) := by
  have hdo : P.Keeps n d (opt (rule .white_noeol *> lit "do")) :=
    ((keeps_white_noeol ih hd).seqRight (keeps_word (by decide))).opt_eq fun _ _ => id
  have hcond := (((((keeps_word (w := "while") (by decide)).seqRight (keeps_white_noeol ih hd)).seqRight
    (ih .expression d rfl nofun)).seqLeft hdo).seqLeft (ih .space_eol d rfl nofun)).map_eq
      (f := fun cond statements => do return Stmt.whileStmt (← cond) (← statements))
  exact (hcond.seq_eq (follows_body ih hd)).seqLeft (keeps_word (by decide))

theorem keeps_therescue : P.Keeps n d (grammar .therescue) := by
  have htypes : P.Keeps n d (opt (rule .white_noeol *> rule .unparenthesised_args)) :=
    ((keeps_white_noeol ih hd).seqRight (ih .unparenthesised_args d rfl nofun)).opt_eq
      fun _ _ => id
  have hname : P.Keeps n d (opt (optBlank *> lit "=>" *> optBlank *> rule .thename)) :=
    (((follows_optBlank.seqRight (keeps_word (by decide))).seqRight follows_optBlank).seqRight
      (ih .thename d rfl nofun)).opt_eq fun _ _ => id
  have hstatements : P.Keeps n d (rule .space *> rule .statements <* rule .space) :=
    ((keeps_space ih hd).seqRight (keeps_statements ih hd)).seqLeft (keeps_space ih hd)
  exact ((((keeps_word (by decide)).seqRight htypes).map_eq).seq_eq hname).seq_eq hstatements

theorem keeps_begin : P.Keeps n d (grammar .begin_) := by
  have hbody : P.Keeps n d (lit "begin" *> rule .space_eol *> optBlank *> rule .statements
      <* rule .space) :=
    (((((keeps_word (by decide)).seqRight (ih .space_eol d rfl nofun)).seqRight
      follows_indent).seqRight (keeps_statements ih hd)).seqLeft (keeps_space ih hd))
  have hrescue : P.Keeps n d (star (rule .therescue)) :=
    Follows.star_eq (ih .therescue d rfl fun _ => hd)
  have helse : P.Keeps n d (opt (rule .theelse)) :=
    (ih .theelse d rfl fun _ => hd).opt_eq fun _ _ => id
  have hensure : P.Keeps n d (opt (rule .theensure)) :=
    (ih .theensure d rfl fun _ => hd).opt_eq fun _ _ => id
  exact (((hbody.map_eq.seq_eq hrescue).seq_eq helse).seq_eq hensure).seqLeft
    (keeps_word (by decide))

/-! ### Classes and methods -/

theorem follows_classHead :
    Follows grammar P.bad P.Exact n (P.Code d) Eq classHead (P.Start d) := by
  have hapart : Follows grammar P.bad P.Exact n (P.Code d) (fun _ _ => True)
      (rule .white_noeol <|> .notAt (rule .extends_)) (P.Code d) := by
    refine .orElse ((keeps_white_noeol ih hd).mono ?_ ?_ ?_) (ih .extends_ d rfl nofun).notAt
    · exact fun _ _ => id
    · exact fun _ _ => id
    · exact fun _ _ _ => trivial
  have hextends : P.Keeps n d (opt (rule .extends_)) :=
    (ih .extends_ d rfl nofun).opt_eq fun _ _ => id
  have hname := (((keeps_word (w := "class") (by decide)).seqRight
    (keeps_white_noeol ih hd)).seqRight (ih .constant d rfl nofun)).seqLeft hapart
  exact ((hname.map_eq (f := fun name e s => do
    return Stmt.classDef name (← optValue e) (← optValue s))).seq_eq hextends).seqLeft (ih .space_eol d rfl nofun)

theorem follows_methodHead :
    Follows grammar P.bad P.Exact n (P.Code d) Eq methodHead (P.Start d) := by
  have hparams : P.Keeps n d (opt (rule .method_params)) :=
    (ih .method_params d rfl nofun).opt_eq fun _ _ => id
  have hname := (((keeps_word (w := "def") (by decide)).seqRight (keeps_space ih hd)).seqRight
    (ih .thename d rfl nofun)).seqLeft follows_optBlank
  exact (hname.map_eq.seq_eq hparams).seqLeft (ih .space_eol d rfl nofun)

omit ih hd in
theorem noEnd_of_start {s s' : List Char} (h : P.Start d s s') (hs : NoEnd s) : NoEnd s' :=
  (dropWord_simple (by decide) (P.skipSpace h).1).2 hs

omit ih hd in
/-- A head, a body that may be missing, and what ends it. -/
theorem follows_bodied {β : Type} {r : Rule} {head : Head} {body : Exp (Option (List Stmt))}
    {ending : Exp β}
    (hhead : Follows grammar P.bad P.Exact n (P.Code d) Eq head (P.Start d))
    (hbody : Follows grammar P.bad P.Exact n (P.Start d) Eq body (P.Code d))
    (hending : P.Keeps n d ending) (hfail : ∀ s, NoEnd s → parse grammar ending s = .fail)
    (hsettled : ∀ {s f t t'}, ¬P.bad r s → parse grammar head s = .ok f t → P.Start d t t' →
      P.Code d t t' ∨ NoEnd t) :
    Follows grammar P.bad P.Exact n (fun s s' => P.Code d s s' ∧ ¬P.bad r s) Eq
      (head <*> (opt body <* ending)) (P.Code d) := by
  refine .of_texts fun s₀ => ?_
  by_cases hbad : P.bad r s₀
  · rintro s s' ⟨⟨-, hgood⟩, rfl⟩
    exact absurd hbad hgood
  · refine .seq_eq ((hhead.from_text s₀).before fun s s' hs => ⟨hs.1.1, hs.2⟩) ?_
    rintro t t' ⟨ht, f, hf⟩ hquiet
    rcases hsettled hbad hf ht with hcode | hnone
    · have hopt : P.Keeps n d (opt body) :=
        (hbody.before fun _ _ => P.start_of_code).opt_eq fun _ _ => id
      exact (hopt.seqLeft hending) t t' hcode hquiet
    · have hboth : Follows grammar P.bad P.Exact n (fun t t' => P.Start d t t' ∧ NoEnd t) Eq
          (opt body <* ending) (P.Code d) := by
        refine .opt_seqLeft (hbody.before fun _ _ => And.left) (fun _ _ => congrArg some) hending ?_
        exact fun s s' hs => ⟨hfail s hs.2, hfail s' (noEnd_of_start hs.1 hs.2)⟩
      exact hboth t t' ⟨ht, hnone⟩ hquiet

theorem follows_classdef : Follows grammar P.bad P.Exact n
    (fun s s' => P.Code d s s' ∧ ¬P.bad .classdef s) Eq (grammar .classdef) (P.Code d) := by
  refine .assoc (follows_bodied (follows_classHead ih hd) ?_ (keeps_word (by decide)) ?_
    P.classBody)
  · exact (ih .statements d rfl fun _ => hd).seqLeft (keeps_space ih hd)
  · intro s hs
    -- white space does not begin with the word
    refine parse_lit_fail (Option.eq_none_iff_forall_ne_some.mpr fun r hr => ?_)
    have hhead : s.head?.any beginsSpace = false := by
      rw [dropWord_eq_some_iff.mp hr]
      rfl
    rw [NoEnd, skipSpace_of_head hhead, hr] at hs
    cases hs

theorem follows_methoddef : Follows grammar P.bad P.Exact n
    (fun s s' => P.Code d s s' ∧ ¬P.bad .methoddef s) Eq (grammar .methoddef) (P.Code d) := by
  refine .assocLeft (.assoc (follows_bodied (follows_methodHead ih hd)
    (ih .statements d rfl fun _ => hd) ((keeps_space ih hd).seqLeft (keeps_word (by decide))) ?_
    P.methodBody))
  intro s hs
  rw [parse_seqLeft, parse_space]
  by_cases hspace : s.head?.any beginsSpace = true
  · rw [if_pos hspace, Result.on_ok, parse_lit_fail hs]
    rfl
  · rw [if_neg hspace]
    rfl

end Parallel

/-- **Every rule keeps a parallel pairing.** -/
theorem Parallel.follows_rule (P : Parallel) (n : Nat) : P.Walked n := by
  induction n with
  | zero => exact fun r d _ _ s s' _ _ => ⟨fun a t h => (nomatch h), fun h => nomatch h⟩
  | succ n ih =>
      intro r d hr hd
      cases r with
      | unit => cases hr
      | eof => cases hr
      | white => cases hr
      | comment_to_eol => cases hr
      | double_quoted_string => cases hr
      | single_quoted_string => cases hr
      | statements => exact .rule (follows_statements ih (hd rfl))
      | statement => exact .rule (keeps_statement ih (hd rfl))
      | classdef => exact .rule_of_good (follows_classdef ih (hd rfl))
      | extends_ =>
          exact .rule (((keeps_word (by decide)).seqRight Pairing.follows_optSpace).seqRight
            (ih .expression d rfl nofun))
      | methoddef => exact .rule_of_good (follows_methoddef ih (hd rfl))
      | method_params => exact .rule (keeps_method_params ih)
      | if_ => exact .rule (keeps_if ih (hd rfl))
      | theelse => exact .rule (keeps_part ih (hd rfl) (by decide))
      | begin_ => exact .rule (keeps_begin ih (hd rfl))
      | therescue => exact .rule (keeps_therescue ih (hd rfl))
      | theensure => exact .rule (keeps_part ih (hd rfl) (by decide))
      | while_ => exact .rule (keeps_while ih (hd rfl))
      | expression => exact .rule (ih .assignment d rfl nofun)
      | assignment => exact .rule (keeps_assignment ih)
      | assign_op => exact .rule keeps_assign_op
      | lhs_stem =>
          exact .rule ((ih .thename d rfl nofun).map_eq.orElse (ih .instvar d rfl nofun).map_eq)
      | left_hand_side => exact .rule (keeps_left_hand_side ih)
      | conditional => exact .rule (keeps_conditional ih)
      | logical =>
          exact .rule (keeps_binaryRule (ih .bitwise d rfl nofun) (ih .logic_op d rfl nofun)
            (ih .logical d rfl nofun))
      | logic_op => exact .rule (keeps_words (by decide) (by decide))
      | bitwise =>
          exact .rule (keeps_binaryRule (ih .equality d rfl nofun) (ih .bit_op d rfl nofun)
            (ih .bitwise d rfl nofun))
      | bit_op =>
          exact .rule ((keeps_word (by decide)).orElse ((keeps_word (by decide)).orElse
            (keeps_words (by decide) (by decide))))
      | equality =>
          exact .rule (keeps_binaryRule (ih .relational d rfl nofun) (ih .equality_op d rfl nofun)
            (ih .equality d rfl nofun))
      | equality_op => exact .rule (keeps_words (by decide) (by decide))
      | relational =>
          exact .rule (keeps_binaryRule (ih .additive d rfl nofun) (ih .relational_op d rfl nofun)
            (ih .relational d rfl nofun))
      | relational_op =>
          exact .rule ((keeps_word (by decide)).orElse ((keeps_word (by decide)).orElse
            (keeps_words (by decide) (by decide))))
      | additive =>
          exact .rule (keeps_binaryRule (ih .multitive d rfl nofun) (ih .add_op d rfl nofun)
            (ih .additive d rfl nofun))
      | add_op => exact .rule (keeps_words (by decide) (by decide))
      | multitive =>
          exact .rule (keeps_binaryRule (ih .lookup d rfl nofun) (ih .mult_op d rfl nofun)
            (ih .multitive d rfl nofun))
      | mult_op => exact .rule (keeps_words (by decide) (by decide))
      | lookup => exact .rule (keeps_lookup ih)
      | primary => exact .rule (keeps_primary ih)
      | parenthesis => exact .rule (keeps_parenthesis ih)
      | invoke => exact .rule (keeps_invoke ih)
      | args =>
          exact .rule ((ih .parenthesised_args d rfl nofun).orElse
            (ih .unparenthesised_args d rfl nofun))
      | parenthesised_args => exact .rule (keeps_parenthesised_args ih)
      | unparenthesised_args => exact .rule (keeps_unparenthesised_args ih)
      | block => exact .rule (keeps_block ih)
      | block_params => exact .rule (keeps_block_params ih)
      | param_list => exact .rule (keeps_param_list ih)
      | param => exact .rule (keeps_param ih)
      | number => exact .rule keeps_number
      | bool =>
          exact .rule ((keeps_word (by decide)).map_eq.orElse (keeps_word (by decide)).map_eq)
      | quoted_string => exact Pairing.follows_quoted_string
      | named_value =>
          exact .rule ((ih .constant d rfl nofun).map_eq.orElse (ih .thename d rfl nofun).map_eq)
      | constant => exact .rule keeps_constant
      | thename => exact .rule keeps_thename
      | instvar => exact .rule keeps_instvar
      | space => exact Pairing.follows_space (hd rfl)
      | space_eol => exact Pairing.follows_space_eol.before fun _ _ => P.start_of_code
      | white_noeol => exact Pairing.follows_white_noeol (hd rfl)

/-- What a rule reads in a text, it reads in a related one. -/
theorem Parallel.parse_ok (P : Parallel) {r : Rule} {d : Nat} (hr : walked r = true)
    (hd : needsWhole r = true → P.Whole d) {s s' t : List Char} {a : Value r}
    (hs : P.before d r s s') (hquiet : Quiet grammar P.bad (rule r) s)
    (h : parse grammar (rule r) s = .ok a t) :
    ∃ a' t', parse grammar (rule r) s' = .ok a' t' ∧ P.after d r t t' ∧
      (P.Exact t t' → a = a') := by
  obtain ⟨n, hn⟩ := run_of_parse grammar (rule r) s (by simp [h])
  have hrun : run grammar n (rule r) s = .ok a t := (hn n (Nat.le_refl n)).trans h
  obtain ⟨a', t', hp, ht, hexact⟩ := (P.follows_rule n r d hr hd s s' hs hquiet).ok a t hrun
  exact ⟨a', t', hp, ht, fun h => (hexact h).2⟩

end Pup.Parse
