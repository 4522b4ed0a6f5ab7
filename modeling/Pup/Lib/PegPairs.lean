/-
Two texts that are parsed alike.

A relation between texts, given as what may hold in front of an expression and behind it, is
kept by a whole grammar if each form of expression keeps it, one lemma for each form
(`Follows`).  A run of the first text has fuel and the second text is parsed outright, so that
the rules are a plain induction on the fuel.

The values that are yielded need not agree for good: `Exact` says whether they still do, and
once it fails it never holds again.  And the first run may be one that keeps away from some
calls (`Quiet`), where the relation would be lost.
-/
import Mathlib.Logic.Relation
import Pup.Lib.Peg

namespace Peg

variable {R : Type} {V : R → Type} {α β γ : Type}

open Expression Result
open Relation (ReflTransGen)

/-! ### Calls -/

/-- A parse of the text with the expression calls the rule at the end `t` of the text. -/
def Expression.Calls (G : Grammar V) :
    {α : Type} → Expression V α → List Char → R → List Char → Prop
  | _, .pure _, _, _, _ => False
  | _, .sat _, _, _, _ => False
  | _, .lit _, _, _, _ => False
  | _, .rule r, s, r', t => r' = r ∧ t = s
  | _, .map _ e, s, r, t => e.Calls G s r t
  | _, .seq f e, s, r, t => f.Calls G s r t ∨ ∃ g u, parse G f s = .ok g u ∧ e.Calls G u r t
  | _, .choice e e', s, r, t => e.Calls G s r t ∨ parse G e s = .fail ∧ e'.Calls G s r t
  | _, .star e, s, r, t =>
      ∃ u, ReflTransGen (fun s u => ∃ a, parse G e s = .ok a u) s u ∧ e.Calls G u r t
  | _, .notAt e, s, r, t => e.Calls G s r t

/-- The parse comes to the rule there, in so many calls inside one another. -/
def Called (G : Grammar V) (e : Expression V α) (s : List Char) (r : R) (t : List Char) : Prop :=
  ∃ r₀ s₀, e.Calls G s r₀ s₀ ∧ ReflTransGen
    (fun p q : R × List Char => (G p.1).Calls G p.2 q.1 q.2) (r₀, s₀) (r, t)

/-- No call of the kind is come to. -/
def Quiet (G : Grammar V) (bad : R → List Char → Prop) (e : Expression V α) (s : List Char) :
    Prop := ∀ r t, Called G e s r t → ¬bad r t

namespace Quiet

variable {G : Grammar V} {bad : R → List Char → Prop} {e : Expression V α} {s : List Char}

/-- What calls less is as quiet. -/
theorem of_calls {e' : Expression V β} {s' : List Char} (h : Quiet G bad e s)
    (hcalls : ∀ r t, e'.Calls G s' r t → e.Calls G s r t) : Quiet G bad e' s' := by
  rintro r t ⟨r₀, s₀, hr, hsteps⟩
  exact h r t ⟨r₀, s₀, hcalls r₀ s₀ hr, hsteps⟩

theorem body {r : R} (h : Quiet G bad (.rule r) s) : Quiet G bad (G r) s := by
  rintro r' t ⟨r₀, s₀, hr, hsteps⟩
  exact h r' t ⟨r, s, ⟨rfl, rfl⟩, .head hr hsteps⟩

theorem good {r : R} (h : Quiet G bad (.rule r) s) : ¬bad r s :=
  h r s ⟨r, s, ⟨rfl, rfl⟩, .refl⟩

end Quiet

/-- A call is at an end of the text. -/
theorem Expression.Calls.suffix {G : Grammar V} {r : R} {t : List Char} {e : Expression V α} :
    ∀ {s : List Char}, e.Calls G s r t → t <:+ s := by
  induction e with
  | pure a => exact fun h => h.elim
  | sat p => exact fun h => h.elim
  | lit w => exact fun h => h.elim
  | rule r => exact fun h => h.2 ▸ List.suffix_rfl
  | map f e ih => exact fun h => ih h
  | seq f e ihf ihe =>
      rintro s (h | ⟨g, u, hu, h⟩)
      · exact ihf h
      · exact (ihe h).trans (parse_suffix G hu)
  | choice e e' ih ih' =>
      rintro s (h | ⟨-, h⟩)
      · exact ih h
      · exact ih' h
  | star e ih =>
      rintro s ⟨u, hu, h⟩
      have hsuffix : u <:+ s := by
        clear h
        induction hu with
        | refl => exact List.suffix_rfl
        | tail _ hstep ih =>
            obtain ⟨a, ha⟩ := hstep
            exact (parse_suffix G ha).trans ih
      exact (ih h).trans hsuffix
  | notAt e ih => exact fun h => ih h

theorem Quiet.of_suffix {G : Grammar V} {bad : R → List Char → Prop} {e : Expression V α}
    {s : List Char} (h : ∀ r t, t <:+ s → ¬bad r t) : Quiet G bad e s := by
  rintro r t ⟨r₀, s₀, hcall, hsteps⟩
  refine h r t (List.IsSuffix.trans ?_ hcall.suffix)
  generalize hp : (r₀, s₀) = p, hq : (r, t) = q at hsteps
  induction hsteps generalizing r t with
  | refl =>
      cases hp
      cases hq
      exact List.suffix_rfl
  | @tail b c _ hstep ih =>
      cases hq
      exact hstep.suffix.trans (ih b.1 b.2 rfl)

/-! ### Results alike -/

/-- The second parse ends as the first one, and leaves a text that `Q` relates to what that one
left.  Where these are exact the texts before were, and the values agree. -/
structure Alike (Exact Q : List Char → List Char → Prop) (W : α → α → Prop) (s s' : List Char)
    (x y : Result α) : Prop where
  ok : ∀ a t, x = .ok a t →
    ∃ a' t', y = .ok a' t' ∧ Q t t' ∧ (Exact t t' → Exact s s' ∧ W a a')
  fail : x = .fail → y = .fail

theorem on_eq_fail {r : Result α} {k : α → List Char → Result β} {x : Result β}
    (h : r.on k x = .fail) : (∃ a t, r = .ok a t ∧ k a t = .fail) ∨ r = .fail ∧ x = .fail := by
  cases r with
  | ok a t => exact .inl ⟨a, t, rfl, h⟩
  | fail => exact .inr ⟨rfl, h⟩
  | diverges => cases h

theorem map_eq_fail {r : Result α} {f : α → β} (h : r.map f = .fail) : r = .fail := by
  rcases on_eq_fail h with ⟨a, t, -, h⟩ | ⟨h, -⟩
  · cases h
  · exact h

section Follows

variable (G : Grammar V) (bad : R → List Char → Prop) (Exact : List Char → List Char → Prop)

/-- From texts that `P` relates the expression leaves texts that `Q` relates. -/
def Follows (n : Nat) (P : List Char → List Char → Prop) (W : α → α → Prop)
    (e : Expression V α) (Q : List Char → List Char → Prop) : Prop :=
  ∀ s s', P s s' → Quiet G bad e s → Alike Exact Q W s s' (run G n e s) (parse G e s')

variable {G bad Exact} {n : Nat} {P P' Q Q' S : List Char → List Char → Prop}

theorem parse_of_run_ok {e : Expression V α} {s t : List Char} {a : α}
    (h : run G n e s = .ok a t) : parse G e s = .ok a t := parse_of_run G h (by simp)

namespace Follows

theorem mono {W W' : α → α → Prop} {e : Expression V α} (h : Follows G bad Exact n P W e Q)
    (hP : ∀ s s', P' s s' → P s s') (hQ : ∀ t t', Q t t' → Q' t t')
    (hW : ∀ a a', W a a' → W' a a') : Follows G bad Exact n P' W' e Q' := by
  intro s s' hs hquiet
  have hrun := h s s' (hP s s' hs) hquiet
  refine ⟨fun a t hr => ?_, hrun.fail⟩
  obtain ⟨a', t', hp, ht, hexact⟩ := hrun.ok a t hr
  exact ⟨a', t', hp, hQ t t' ht, fun h => ⟨(hexact h).1, hW a a' (hexact h).2⟩⟩

theorem before {W : α → α → Prop} {e : Expression V α} (h : Follows G bad Exact n P W e Q)
    (hP : ∀ s s', P' s s' → P s s') : Follows G bad Exact n P' W e Q :=
  h.mono hP (fun _ _ => id) fun _ _ => id

/-- What is known of the parses holds of the runs. -/
theorem of_parse {W : α → α → Prop} {e : Expression V α}
    (h : ∀ s s', P s s' → Alike Exact Q W s s' (parse G e s) (parse G e s')) :
    Follows G bad Exact n P W e Q := by
  intro s s' hs _
  have hparse := h s s' hs
  refine ⟨fun a t hr => hparse.ok a t (parse_of_run_ok hr), fun hr => hparse.fail ?_⟩
  exact parse_of_run G hr (by simp)

theorem pure {W : α → α → Prop} {a : α} (ha : W a a) (hP : ∀ s s', P s s' → Q s s') :
    Follows G bad Exact n P W (.pure a) Q := by
  intro s s' hs _
  refine ⟨fun b t hb => ?_, fun h => nomatch h⟩
  cases hb
  exact ⟨a, s', rfl, hP s s' hs, fun hexact => ⟨hexact, ha⟩⟩

theorem map {W : α → α → Prop} {W' : β → β → Prop} {f : α → β} {e : Expression V α}
    (h : Follows G bad Exact n P W e Q) (hf : ∀ a a', W a a' → W' (f a) (f a')) :
    Follows G bad Exact n P W' (f <$> e) Q := by
  intro s s' hs hquiet
  have hrun := h s s' hs (hquiet.of_calls fun _ _ => id)
  constructor
  · intro b t hb
    obtain ⟨a, u, hr, hb⟩ := on_eq_ok hb
    cases hb
    obtain ⟨a', t', hp, ht, hexact⟩ := hrun.ok a t hr
    refine ⟨f a', t', ?_, ht, fun h => ⟨(hexact h).1, hf a a' (hexact h).2⟩⟩
    rw [parse_map, hp, map_ok]
  · intro hr
    rw [parse_map, hrun.fail (map_eq_fail (f := f) hr), map_fail]

theorem seq {W : (α → β) → (α → β) → Prop} {W' : α → α → Prop} {X : β → β → Prop}
    {f : Expression V (α → β)} {e : Expression V α} (hf : Follows G bad Exact n P W f Q)
    (he : Follows G bad Exact n Q W' e S)
    (hX : ∀ g g' a a', W g g' → W' a a' → X (g a) (g' a')) :
    Follows G bad Exact n P X (f <*> e) S := by
  intro s s' hs hquiet
  have hfirst := hf s s' hs (hquiet.of_calls fun _ _ => .inl)
  have hsecond : ∀ g t, run G n f s = .ok g t → ∀ g' t', parse G f s' = .ok g' t' →
      Q t t' → Alike Exact S W' t t' (run G n e t) (parse G e t') :=
    fun g t hr g' t' _ ht => he t t' ht
      (hquiet.of_calls fun _ _ h => .inr ⟨g, t, parse_of_run_ok hr, h⟩)
  constructor
  · intro b v hb
    obtain ⟨g, t, hr, hb⟩ := on_eq_ok hb
    obtain ⟨a, u, hr', hb⟩ := on_eq_ok hb
    cases hb
    obtain ⟨g', t', hp, ht, hexact⟩ := hfirst.ok g t hr
    obtain ⟨a', v', hp', hv, hexact'⟩ := (hsecond g t hr g' t' hp ht).ok a v hr'
    refine ⟨g' a', v', by rw [parse_seq, hp, on_ok, hp', map_ok], hv, fun h => ?_⟩
    obtain ⟨h, ha⟩ := hexact' h
    obtain ⟨h, hg⟩ := hexact h
    exact ⟨h, hX g g' a a' hg ha⟩
  · intro hr
    rw [parse_seq]
    rcases on_eq_fail hr with ⟨g, t, hr, hr'⟩ | ⟨hr, -⟩
    · obtain ⟨g', t', hp, ht, -⟩ := hfirst.ok g t hr
      rw [hp, on_ok, (hsecond g t hr g' t' hp ht).fail (map_eq_fail hr'), map_fail]
    · rw [hfirst.fail hr, on_fail]

theorem seqLeft {W : α → α → Prop} {W' : β → β → Prop} {e : Expression V α}
    {e' : Expression V β} (he : Follows G bad Exact n P W e Q)
    (he' : Follows G bad Exact n Q W' e' S) : Follows G bad Exact n P W (e <* e') S := by
  have hmap : Follows G bad Exact n P (fun g g' => ∀ b b', W (g b) (g' b'))
      ((fun (a : α) (_ : β) => a) <$> e) Q := he.map fun a a' ha _ _ => ha
  exact hmap.seq he' fun g g' b b' hg _ => hg b b'

theorem seqRight {W : α → α → Prop} {W' : β → β → Prop} {e : Expression V α}
    {e' : Expression V β} (he : Follows G bad Exact n P W e Q)
    (he' : Follows G bad Exact n Q W' e' S) : Follows G bad Exact n P W' (e *> e') S := by
  have hmap : Follows G bad Exact n P (fun g g' => ∀ b b', W' b b' → W' (g b) (g' b'))
      ((fun (_ : α) (b : β) => b) <$> e) Q := he.map fun _ _ _ _ _ hb => hb
  exact hmap.seq he' fun g g' b b' hg hb => hg b b' hb

theorem orElse {W : α → α → Prop} {e e' : Expression V α} (he : Follows G bad Exact n P W e Q)
    (he' : Follows G bad Exact n P W e' Q) : Follows G bad Exact n P W (e <|> e') Q := by
  intro s s' hs hquiet
  have hfirst := he s s' hs (hquiet.of_calls fun _ _ => .inl)
  have hsecond : run G n e s = .fail →
      Alike Exact Q W s s' (run G n e' s) (parse G e' s') :=
    fun hr => he' s s' hs (hquiet.of_calls fun _ _ h => .inr ⟨parse_of_run G hr (by simp), h⟩)
  constructor
  · intro a t hr
    change (run G n e s).on .ok (run G n e' s) = _ at hr
    rw [parse_orElse]
    cases hx : run G n e s with
    | ok b u =>
        rw [hx] at hr
        cases hr
        obtain ⟨a', t', hp, h⟩ := hfirst.ok a t hx
        exact ⟨a', t', by rw [hp, on_ok], h⟩
    | fail =>
        rw [hx, on_fail] at hr
        rw [hfirst.fail hx, on_fail]
        exact (hsecond hx).ok a t hr
    | diverges =>
        rw [hx] at hr
        cases hr
  · intro hr
    rcases on_eq_fail hr with ⟨a, t, -, hr⟩ | ⟨hx, hr⟩
    · cases hr
    · rw [parse_orElse, hfirst.fail hx, on_fail, (hsecond hx).fail hr]

theorem opt {W : α → α → Prop} {W' : Option α → Option α → Prop} {e : Expression V α}
    (he : Follows G bad Exact n P W e Q) (hP : ∀ s s', P s s' → Q s s') (hnone : W' none none)
    (hsome : ∀ a a', W a a' → W' (some a) (some a')) :
    Follows G bad Exact n P W' (opt e) Q :=
  (he.map hsome).orElse (.pure hnone hP)

theorem notAt {W : α → α → Prop} {e : Expression V α} (he : Follows G bad Exact n P W e Q) :
    Follows G bad Exact n P (fun _ _ => True) (.notAt e) P := by
  intro s s' hs hquiet
  have hrun := he s s' hs (hquiet.of_calls fun _ _ => id)
  constructor
  · intro a t hr
    change (run G n e s).on (fun _ _ => .fail) (.ok () s) = _ at hr
    cases hx : run G n e s with
    | ok b u =>
        rw [hx] at hr
        cases hr
    | fail =>
        rw [hx] at hr
        cases hr
        exact ⟨(), s', by rw [parse_notAt, hrun.fail hx, on_fail], hs, fun h => ⟨h, trivial⟩⟩
    | diverges =>
        rw [hx] at hr
        cases hr
  · intro hr
    rcases on_eq_fail hr with ⟨a, t, hr, -⟩ | ⟨-, hr⟩
    · obtain ⟨a', t', hp, -⟩ := hrun.ok a t hr
      rw [parse_notAt, hp, on_ok]
    · cases hr

/-- A loop whose rounds lead from related texts to related texts.  Where the first one stops
the second one may go on, if the texts are not exact from there on. -/
theorem star_until {W : α → α → Prop} {W' : List α → List α → Prop} {e : Expression V α}
    (he : Follows G bad Exact n P' W e P) (hnil : W' [] [])
    (hcons : ∀ a a' as as', W a a' → W' as as' → W' (a :: as) (a' :: as'))
    (hstep : ∀ s s', P s s' → P' s s' ∨ parse G e s = .fail ∧
      ∃ as t', parse G (.star e) s' = .ok as t' ∧ Q s t' ∧ ¬Exact s t')
    (hPQ : ∀ s s', P s s' → Q s s') : Follows G bad Exact n P W' (.star e) Q := by
  have hloop : ∀ k s s', P s s' → Quiet G bad (.star e) s →
      Alike Exact Q W' s s' (starLoop (run G n e) k s) (parse G (.star e) s') := by
    intro k
    induction k with
    | zero =>
        intro s s' _ _
        constructor
        · intro _ _ h
          cases h
        · intro h
          cases h
    | succ k ih =>
        intro s s' hs hquiet
        rcases hstep s s' hs with hs' | ⟨hfail, as, t', hstar, ht, hexact⟩
        · have hrun := he s s' hs' (hquiet.of_calls fun _ _ h => ⟨s, .refl, h⟩)
          have hrest : ∀ a t, run G n e s = .ok a t → ∀ t', P t t' →
              Alike Exact Q W' t t' (starLoop (run G n e) k t) (parse G (.star e) t') := by
            intro a t hr t' ht
            refine ih t t' ht (hquiet.of_calls fun _ _ hcalls => ?_)
            obtain ⟨u, hu, h⟩ := hcalls
            exact ⟨u, .head ⟨a, parse_of_run_ok hr⟩ hu, h⟩
          rw [starLoop, parse_star]
          constructor
          · intro as v hr
            cases hx : run G n e s with
            | ok a t =>
                rw [hx, on_ok] at hr
                obtain ⟨as', u, hr, has⟩ := on_eq_ok hr
                cases has
                obtain ⟨a', t', hp, ht, hexact⟩ := hrun.ok a t hx
                obtain ⟨bs, v', hp', hv, hexact'⟩ := (hrest a t hx t' ht).ok as' v hr
                refine ⟨a' :: bs, v', by rw [hp, on_ok, hp', map_ok], hv, fun h => ?_⟩
                obtain ⟨h, has⟩ := hexact' h
                obtain ⟨h, ha⟩ := hexact h
                exact ⟨h, hcons a a' as' bs ha has⟩
            | fail =>
                rw [hx] at hr
                cases hr
                exact ⟨[], s', by rw [hrun.fail hx, on_fail], hPQ s s' hs, fun h => ⟨h, hnil⟩⟩
            | diverges =>
                rw [hx] at hr
                cases hr
          · intro hr
            rcases on_eq_fail hr with ⟨a, t, hx, hr⟩ | ⟨-, hr⟩
            · obtain ⟨a', t', hp, ht, -⟩ := hrun.ok a t hx
              rw [hp, on_ok, (hrest a t hx t' ht).fail (map_eq_fail hr), map_fail]
            · cases hr
        · -- the first loop stops here
          rw [starLoop, hstar]
          cases hx : run G n e s with
          | ok a t =>
              rw [parse_of_run_ok hx] at hfail
              cases hfail
          | fail =>
              constructor
              · intro bs t hr
                cases hr
                exact ⟨as, t', rfl, ht, fun h => absurd h hexact⟩
              · intro hr
                cases hr
          | diverges =>
              constructor
              · intro _ _ hr
                cases hr
              · intro hr
                cases hr
  exact fun s s' hs hquiet => hloop (s.length + 1) s s' hs hquiet

theorem star {W : α → α → Prop} {W' : List α → List α → Prop} {e : Expression V α}
    (he : Follows G bad Exact n P W e P) (hnil : W' [] [])
    (hcons : ∀ a a' as as', W a a' → W' as as' → W' (a :: as) (a' :: as')) :
    Follows G bad Exact n P W' (.star e) P :=
  he.star_until hnil hcons (fun _ _ => .inl) fun _ _ => id

theorem plus {W : α → α → Prop} {W' : List α → List α → Prop} {e : Expression V α}
    (he : Follows G bad Exact n P W e Q) (hrest : Follows G bad Exact n Q W e Q)
    (hnil : W' [] []) (hcons : ∀ a a' as as', W a a' → W' as as' → W' (a :: as) (a' :: as')) :
    Follows G bad Exact n P W' (Expression.plus e) Q := by
  have hmap : Follows G bad Exact n P (fun g g' => ∀ as as', W' as as' → W' (g as) (g' as'))
      (List.cons <$> e) Q := he.map fun a a' ha as as' has => hcons a a' as as' ha has
  exact hmap.seq (hrest.star hnil hcons) fun g g' as as' hg has => hg as as' has

/-! ### Values that agree -/

theorem map_eq {f : α → β} {e : Expression V α} (h : Follows G bad Exact n P Eq e Q) :
    Follows G bad Exact n P Eq (f <$> e) Q := h.map fun _ _ => congrArg f

theorem seq_eq {f : Expression V (α → β)} {e : Expression V α}
    (hf : Follows G bad Exact n P Eq f Q) (he : Follows G bad Exact n Q Eq e S) :
    Follows G bad Exact n P Eq (f <*> e) S := hf.seq he fun _ _ _ _ hg ha => congr hg ha

theorem opt_eq {e : Expression V α} (he : Follows G bad Exact n P Eq e Q)
    (hP : ∀ s s', P s s' → Q s s') : Follows G bad Exact n P Eq (Expression.opt e) Q :=
  he.opt hP rfl fun _ _ => congrArg some

theorem star_eq {e : Expression V α} (he : Follows G bad Exact n P Eq e P) :
    Follows G bad Exact n P Eq (.star e) P := he.star rfl fun _ _ _ _ ha has => congrArg₂ _ ha has

theorem plus_eq {e : Expression V α} (he : Follows G bad Exact n P Eq e P) :
    Follows G bad Exact n P Eq (Expression.plus e) P :=
  he.plus he rfl fun _ _ _ _ ha has => congrArg₂ _ ha has

/-! ### Rules -/

/-- **A rule follows with one call more than its expression.** -/
theorem rule {r : R} {W : V r → V r → Prop} (h : Follows G bad Exact n P W (G r) Q) :
    Follows G bad Exact (n + 1) P W (.rule r) Q := by
  intro s s' hs hquiet
  have hrun := h s s' hs hquiet.body
  rw [parse_rule]
  exact hrun

/-! ### More than one form at once -/

/-- What is known of the first text before holds of it behind. -/
theorem from_text {W : α → α → Prop} {e : Expression V α} (h : Follows G bad Exact n P W e Q)
    (s₀ : List Char) : Follows G bad Exact n (fun s s' => P s s' ∧ s = s₀) W e
      (fun t t' => Q t t' ∧ ∃ a, parse G e s₀ = .ok a t) := by
  rintro s s' ⟨hs, rfl⟩ hquiet
  have hrun := h s s' hs hquiet
  refine ⟨fun a t hr => ?_, hrun.fail⟩
  obtain ⟨a', t', hp, ht, hexact⟩ := hrun.ok a t hr
  exact ⟨a', t', hp, ⟨ht, a, parse_of_run_ok hr⟩, hexact⟩

theorem of_texts {W : α → α → Prop} {e : Expression V α}
    (h : ∀ s₀, Follows G bad Exact n (fun s s' => P s s' ∧ s = s₀) W e Q) :
    Follows G bad Exact n P W e Q := fun s s' hs hquiet => h s s s' ⟨hs, rfl⟩ hquiet

/-- A rule is not called where it is bad. -/
theorem rule_of_good {r : R} {W : V r → V r → Prop}
    (h : Follows G bad Exact n (fun s s' => P s s' ∧ ¬bad r s) W (G r) Q) :
    Follows G bad Exact (n + 1) P W (.rule r) Q := by
  intro s s' hs hquiet
  have hrun := h s s' ⟨hs, hquiet.good⟩ hquiet.body
  rw [parse_rule]
  exact hrun

/-- An expression that does the same, and calls as much. -/
theorem of_eval {W : α → α → Prop} {e e' : Expression V α} (h : Follows G bad Exact n P W e Q)
    (heval : ∀ (call : Calls V) s, e'.eval call s = e.eval call s)
    (hcalls : ∀ s r t, e.Calls G s r t → e'.Calls G s r t) :
    Follows G bad Exact n P W e' Q := by
  intro s s' hs hquiet
  have hrun := h s s' hs (hquiet.of_calls fun r t => hcalls s r t)
  rwa [run, heval, parse, heval]

/-- What is left of the text behind `f` may be read in one piece. -/
theorem assoc {X : β → β → Prop} {f : Expression V (α → β)} {e : Expression V α}
    {e' : Expression V γ} (h : Follows G bad Exact n P X (f <*> (e <* e')) S) :
    Follows G bad Exact n P X (f <*> e <* e') S := by
  refine h.of_eval (fun call s => ?_) fun s r t hr => ?_
  · change (((f.eval call s).on (fun g t => (e.eval call t).map g) .fail).map
        fun a (_ : γ) => a).on (fun g t => (e'.eval call t).map g) .fail =
      (f.eval call s).on (fun g t => (((e.eval call t).map fun a (_ : γ) => a).on
        (fun g t => (e'.eval call t).map g) .fail).map g) .fail
    cases f.eval call s with
    | ok g t =>
        rw [on_ok, on_ok]
        cases e.eval call t with
        | ok a u =>
            simp only [map_ok, on_ok]
            cases e'.eval call u <;> rfl
        | fail => rfl
        | diverges => rfl
    | fail => rfl
    | diverges => rfl
  · rcases hr with hr | ⟨g, u, hf, hr | ⟨a, v, he, hr⟩⟩
    · exact .inl (.inl hr)
    · exact .inl (.inr ⟨g, u, hf, hr⟩)
    · obtain ⟨b, w, hb, ha⟩ := on_eq_ok he
      cases ha
      have hb : parse G e u = .ok b v := hb
      refine .inr ⟨fun _ => g b, v, ?_, hr⟩
      change (parse G (f <*> e) s).map _ = _
      rw [parse_seq, hf, on_ok, hb]
      rfl

/-- And so may what is skipped. -/
theorem assocLeft {δ : Type} {W : α → α → Prop} {e : Expression V α} {e' : Expression V γ}
    {e'' : Expression V δ} (h : Follows G bad Exact n P W (e <* (e' <* e'')) S) :
    Follows G bad Exact n P W (e <* e' <* e'') S := by
  refine h.of_eval (fun call s => ?_) fun s r t hr => ?_
  · change (((((e.eval call s).map fun a (_ : γ) => a).on
          (fun g t => (e'.eval call t).map g) .fail).map fun a (_ : δ) => a).on
        (fun g t => (e''.eval call t).map g) .fail) =
      ((e.eval call s).map fun a (_ : γ) => a).on (fun g t =>
        (((e'.eval call t).map fun b (_ : δ) => b).on
          (fun g t => (e''.eval call t).map g) .fail).map g) .fail
    cases e.eval call s with
    | ok a t =>
        simp only [map_ok, on_ok]
        cases e'.eval call t with
        | ok b u =>
            simp only [map_ok, on_ok]
            cases e''.eval call u <;> rfl
        | fail => rfl
        | diverges => rfl
    | fail => rfl
    | diverges => rfl
  · rcases hr with hr | ⟨g, u, hf, hr | ⟨a, v, he, hr⟩⟩
    · exact .inl (.inl hr)
    · exact .inl (.inr ⟨g, u, hf, hr⟩)
    · obtain ⟨b, w, hb, ha⟩ := on_eq_ok he
      cases ha
      obtain ⟨b', w', hb', ha'⟩ := on_eq_ok hf
      cases ha'
      have hb : parse G e' u = .ok b v := hb
      have hb' : parse G e s = .ok b' u := hb'
      refine .inr ⟨fun _ => b', v, ?_, hr⟩
      change (parse G (e <* e') s).map _ = _
      rw [parse_seqLeft, hb', on_ok, hb]
      rfl

/-- What may be missing, in front of what cannot begin where it is. -/
theorem opt_seqLeft {W : α → α → Prop} {W' : Option α → Option α → Prop} {e : Expression V α}
    {e' : Expression V β} {X : β → β → Prop} (he : Follows G bad Exact n P W e Q)
    (hsome : ∀ a a', W a a' → W' (some a) (some a')) (he' : Follows G bad Exact n Q X e' S)
    (hfail : ∀ s s', P s s' → parse G e' s = .fail ∧ parse G e' s' = .fail) :
    Follows G bad Exact n P W' (Expression.opt e <* e') S := by
  have hboth : Follows G bad Exact n P W' ((some <$> e) <* e') S := (he.map hsome).seqLeft he'
  intro s s' hs hquiet
  have hfirst := he s s' hs (hquiet.of_calls fun _ _ h => .inl (.inl h))
  have hopt : ∀ {t u : List Char} {a : α}, parse G e t = .ok a u →
      parse G (Expression.opt e <* e') t = parse G ((some <$> e) <* e') t := by
    intro t u a ht
    rw [parse_seqLeft, parse_seqLeft, parse_opt, parse_map, ht]
    rfl
  cases hx : run G n e s with
  | ok a t =>
      obtain ⟨a', t', hp, -⟩ := hfirst.ok a t hx
      have hrun : run G n (Expression.opt e <* e') s = run G n ((some <$> e) <* e') s := by
        change ((((run G n e s).map some).on .ok (.ok none s)).map fun a (_ : β) => a).on _ _ =
          ((((run G n e s).map some)).map fun a (_ : β) => a).on _ _
        rw [hx]
        rfl
      rw [hrun, hopt hp]
      refine hboth s s' hs (hquiet.of_calls fun r u hr => ?_)
      rcases hr with hr | ⟨g, v, hg, hr⟩
      · exact .inl (.inl hr)
      · refine .inr ⟨g, v, ?_, hr⟩
        have hparse := parse_of_run_ok hx
        change (parse G (some <$> e) s).map _ = _ at hg
        change (parse G (Expression.opt e) s).map _ = _
        rw [parse_map, hparse] at hg
        rw [parse_opt, hparse]
        exact hg
  | fail =>
      have hnone : run G n (Expression.opt e <* e') s = (run G n e' s).map fun _ => none := by
        change ((((run G n e s).map some).on .ok (.ok none s)).map fun a (_ : β) => a).on
          (fun g t => (run G n e' t).map g) .fail = _
        rw [hx]
        rfl
      have hparse : parse G (Expression.opt e <* e') s' = .fail := by
        rw [parse_seqLeft, parse_opt, hfirst.fail hx, on_fail, on_ok, (hfail s s' hs).2, map_fail]
      rw [hnone]
      refine ⟨fun a t hr => ?_, fun _ => hparse⟩
      obtain ⟨b, u, hb, -⟩ := on_eq_ok hr
      have hb' := parse_of_run_ok hb
      rw [(hfail s s' hs).1] at hb'
      cases hb'
  | diverges =>
      have hrun : run G n (Expression.opt e <* e') s = .diverges := by
        change ((((run G n e s).map some).on .ok (.ok none s)).map fun a (_ : β) => a).on _ _ = _
        rw [hx]
        rfl
      rw [hrun]
      exact ⟨fun _ _ h => (nomatch h), fun h => (nomatch h)⟩

end Follows

end Follows

end Peg
