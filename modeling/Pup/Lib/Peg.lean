/-
Parsing expression grammars.

An expression is data, typed by the values that it yields, so that what holds of all
expressions is proved once, by induction.  A grammar gives every rule its expression.

Rules call one another without end, and so a run has fuel for the depth of the calls; a rule
means what its runs agree on once they have enough of it.  That this meaning satisfies the
grammar's equations (`parse_rule`) is a least fixed point argument: more fuel only ever
replaces the result `diverges`, and a result that is not `diverges` needs a finite amount.
After that nothing mentions fuel: a text is parsed by rewriting with one equation for each
form of expression.
-/
import Mathlib.Data.List.Basic
import Mathlib.Data.Nat.Find

namespace Peg

/-! ### Results -/

/-- What comes of a text: a value and what is left of the text, or not. -/
inductive Result (α : Type)
  | ok (a : α) (rest : List Char)
  | fail
  /-- the parser does not come to an end -/
  | diverges
  deriving DecidableEq

namespace Result

variable {α β : Type}

/-- Goes on after a success with `k`, and after a failure with `x`. -/
def on (r : Result α) (k : α → List Char → Result β) (x : Result β) : Result β :=
  match r with
  | ok a t => k a t
  | fail => x
  | diverges => diverges

def map (f : α → β) (r : Result α) : Result β := r.on (fun a t => ok (f a) t) fail

@[simp] theorem on_ok (a : α) (t : List Char) (k : α → List Char → Result β) (x : Result β) :
    (ok a t).on k x = k a t := rfl
@[simp] theorem on_fail (k : α → List Char → Result β) (x : Result β) :
    (fail : Result α).on k x = x := rfl
@[simp] theorem on_diverges (k : α → List Char → Result β) (x : Result β) :
    (diverges : Result α).on k x = diverges := rfl
@[simp] theorem map_ok (f : α → β) (a : α) (t : List Char) : (ok a t).map f = ok (f a) t := rfl
@[simp] theorem map_fail (f : α → β) : (fail : Result α).map f = fail := rfl
@[simp] theorem map_diverges (f : α → β) : (diverges : Result α).map f = diverges := rfl

theorem on_eq_ok {r : Result α} {k : α → List Char → Result β} {b : β} {u : List Char}
    (h : r.on k fail = ok b u) : ∃ a t, r = ok a t ∧ k a t = ok b u := by
  cases r with
  | ok a t => exact ⟨a, t, rfl, h⟩
  | fail => cases h
  | diverges => cases h

/-- Where `x` has come to an end, `y` has ended the same way. -/
def Below (x y : Result α) : Prop := x ≠ diverges → x = y

theorem Below.refl (x : Result α) : Below x x := fun _ => rfl

theorem below_diverges (y : Result α) : Below diverges y := fun h => absurd rfl h

theorem Below.trans {x y z : Result α} (h : Below x y) (h' : Below y z) : Below x z := by
  intro hx
  have hxy := h hx
  rw [hxy]
  exact h' (hxy ▸ hx)

theorem Below.on {r r' : Result α} {k k' : α → List Char → Result β} {x x' : Result β}
    (hr : Below r r') (hk : ∀ a t, Below (k a t) (k' a t)) (hx : Below x x') :
    Below (r.on k x) (r'.on k' x') := by
  cases r with
  | ok a t =>
      rw [← hr (by simp)]
      exact hk a t
  | fail =>
      rw [← hr (by simp)]
      exact hx
  | diverges => exact below_diverges _

/-- Where `y` has come to an end, almost all `x` have ended the same way. -/
def Settles (x : Nat → Result α) (y : Result α) : Prop :=
  y ≠ diverges → ∃ n, ∀ m ≥ n, x m = y

theorem settles_const (y : Result α) : Settles (fun _ => y) y := fun _ => ⟨0, fun _ _ => rfl⟩

theorem Settles.on {r : Nat → Result α} {r' : Result α} {k : Nat → α → List Char → Result β}
    {k' : α → List Char → Result β} {x : Nat → Result β} {x' : Result β} (hr : Settles r r')
    (hk : ∀ a t, Settles (fun n => k n a t) (k' a t)) (hx : Settles x x') :
    Settles (fun n => (r n).on (k n) (x n)) (r'.on k' x') := by
  intro hend
  cases r' with
  | ok a t =>
      obtain ⟨n, hn⟩ := hr (by simp)
      obtain ⟨n', hn'⟩ := hk a t hend
      refine ⟨max n n', fun m hm => ?_⟩
      simp only [hn m (by omega), on_ok]
      exact hn' m (by omega)
  | fail =>
      obtain ⟨n, hn⟩ := hr (by simp)
      obtain ⟨n', hn'⟩ := hx hend
      refine ⟨max n n', fun m hm => ?_⟩
      simp only [hn m (by omega), on_fail]
      exact hn' m (by omega)
  | diverges => exact absurd rfl hend

end Result

open Result

/-! ### Expressions -/

/-- Parsing expressions over the rules `R`, of which `r` yields values of `V r`. -/
inductive Expression {R : Type} (V : R → Type) : Type → Type 1
  | pure {α : Type} (a : α) : Expression V α
  /-- a character -/
  | sat (p : Char → Bool) : Expression V Char
  /-- a terminal -/
  | lit (w : String) : Expression V String
  | rule (r : R) : Expression V (V r)
  | map {α β : Type} (f : α → β) (e : Expression V α) : Expression V β
  | seq {α β : Type} (f : Expression V (α → β)) (e : Expression V α) : Expression V β
  /-- ordered choice -/
  | choice {α : Type} (e e' : Expression V α) : Expression V α
  | star {α : Type} (e : Expression V α) : Expression V (List α)
  /-- a lookahead, which wants a failure -/
  | notAt {α : Type} (e : Expression V α) : Expression V Unit

namespace Expression

variable {R : Type} {V : R → Type} {α β : Type}

instance : Functor (Expression V) where
  map := .map

instance : Seq (Expression V) where
  seq f e := .seq f (e ())

instance : SeqLeft (Expression V) where
  seqLeft e e' := .seq (.map (fun a _ => a) e) (e' ())

instance : SeqRight (Expression V) where
  seqRight e e' := .seq (.map (fun _ b => b) e) (e' ())

instance : OrElse (Expression V α) where
  orElse e e' := .choice e (e' ())

/-- `e+` -/
def plus (e : Expression V α) : Expression V (List α) := List.cons <$> e <*> .star e

/-- `e?` -/
def opt (e : Expression V α) : Expression V (Option α) := some <$> e <|> .pure none

end Expression

/-! ### Runs -/

/-- The text behind the word, if it begins with it. -/
def dropWord : List Char → List Char → Option (List Char)
  | [], s => some s
  | _ :: _, [] => none
  | c :: w, d :: s => if c = d then dropWord w s else none

theorem dropWord_eq_some_iff {w s t : List Char} : dropWord w s = some t ↔ s = w ++ t := by
  induction w generalizing s with
  | nil => simp [dropWord]
  | cons c w ih =>
      cases s with
      | nil => simp [dropWord]
      | cons d s =>
          by_cases hcd : c = d
          · simp [dropWord, hcd, ih]
          · simp [dropWord, hcd, Ne.symm hcd]

@[simp] theorem dropWord_append (w t : List Char) : dropWord w (w ++ t) = some t :=
  dropWord_eq_some_iff.mpr rfl

/-- What the rules do. -/
abbrev Calls {R : Type} (V : R → Type) : Type := (r : R) → List Char → Result (V r)

/-- At most so many rounds of `e*`. -/
def starLoop {α : Type} (p : List Char → Result α) : Nat → List Char → Result (List α)
  | 0, _ => .diverges
  | n + 1, s => (p s).on (fun a t => (starLoop p n t).map (a :: ·)) (.ok [] s)

variable {R : Type} {V : R → Type} {α β : Type}

/-- What an expression does with a text.  A loop has one round more than there are
characters: the body of a longer one has consumed nothing, and will again. -/
def Expression.eval (call : Calls V) : {α : Type} → Expression V α → List Char → Result α
  | _, .pure a, s => .ok a s
  | _, .sat p, c :: s => if p c then .ok c s else .fail
  | _, .sat _, [] => .fail
  | _, .lit w, s =>
      match dropWord w.toList s with
      | some t => .ok w t
      | none => .fail
  | _, .rule r, s => call r s
  | _, .map f e, s => (e.eval call s).map f
  | _, .seq f e, s => (f.eval call s).on (fun g t => (e.eval call t).map g) .fail
  | _, .choice e e', s => (e.eval call s).on .ok (e'.eval call s)
  | _, .star e, s => starLoop (e.eval call) (s.length + 1) s
  | _, .notAt e, s => (e.eval call s).on (fun _ _ => .fail) (.ok () s)

abbrev Grammar (V : R → Type) : Type 1 := (r : R) → Expression V (V r)

/-- The rules, with fuel for so many calls inside one another. -/
def iter (G : Grammar V) : Nat → Calls V
  | 0 => fun _ _ => .diverges
  | n + 1 => fun r => (G r).eval (iter G n)

/-- A run with fuel. -/
def run (G : Grammar V) (n : Nat) (e : Expression V α) (s : List Char) : Result α :=
  e.eval (iter G n) s

/-! ### More fuel -/

theorem below_map {r r' : Result α} (f : α → β) (h : Below r r') : Below (r.map f) (r'.map f) :=
  h.on (fun _ _ => .refl _) (.refl _)

theorem below_starLoop {p p' : List Char → Result α} (h : ∀ s, Below (p s) (p' s)) (n : Nat) :
    ∀ s, Below (starLoop p n s) (starLoop p' n s) := by
  induction n with
  | zero => exact fun _ => .refl _
  | succ n ih => exact fun s => (h s).on (fun a t => below_map _ (ih t)) (.refl _)

/-- Where the rules have come to an end more often, so has an expression. -/
theorem below_eval {call call' : Calls V} (h : ∀ r s, Below (call r s) (call' r s))
    (e : Expression V α) : ∀ s, Below (e.eval call s) (e.eval call' s) := by
  induction e with
  | pure a => exact fun _ => .refl _
  | sat p => exact fun s => by cases s <;> exact .refl _
  | lit w => exact fun _ => .refl _
  | rule r => exact h r
  | map f e ih => exact fun s => below_map f (ih s)
  | seq f e ihf ihe => exact fun s => (ihf s).on (fun g t => below_map g (ihe t)) (.refl _)
  | choice e e' ih ih' => exact fun s => (ih s).on (fun _ _ => .refl _) (ih' s)
  | star e ih => exact fun s => below_starLoop ih _ s
  | notAt e ih => exact fun s => (ih s).on (fun _ _ => .refl _) (.refl _)

theorem iter_below_succ (G : Grammar V) (n : Nat) :
    ∀ r s, Below (iter G n r s) (iter G (n + 1) r s) := by
  induction n with
  | zero => exact fun _ _ => below_diverges _
  | succ n ih => exact fun r s => below_eval ih (G r) s

theorem iter_below (G : Grammar V) {n m : Nat} (h : n ≤ m) (r : R) (s : List Char) :
    Below (iter G n r s) (iter G m r s) := by
  induction h with
  | refl => exact .refl _
  | step _ ih => exact ih.trans (iter_below_succ G _ r s)

/-! ### The meaning of a grammar -/

open Classical in
/-- What the runs of a rule agree on. -/
noncomputable def meaning (G : Grammar V) : Calls V := fun r s =>
  if h : ∃ n, iter G n r s ≠ .diverges then iter G (Nat.find h) r s else .diverges

/-- What comes of a text. -/
noncomputable def parse (G : Grammar V) (e : Expression V α) (s : List Char) : Result α :=
  e.eval (meaning G) s

theorem iter_below_meaning (G : Grammar V) (n : Nat) (r : R) (s : List Char) :
    Below (iter G n r s) (meaning G r s) := by
  intro hn
  have h : ∃ n, iter G n r s ≠ .diverges := ⟨n, hn⟩
  rw [meaning, dif_pos h]
  classical
  exact (iter_below G (Nat.find_min' h hn) r s (Nat.find_spec h)).symm

theorem settles_meaning (G : Grammar V) (r : R) (s : List Char) :
    Settles (fun n => iter G n r s) (meaning G r s) := by
  intro hend
  by_cases h : ∃ n, iter G n r s ≠ .diverges
  · obtain ⟨n, hn⟩ := h
    refine ⟨n, fun m hm => ?_⟩
    calc iter G m r s = iter G n r s := (iter_below G hm r s hn).symm
      _ = meaning G r s := iter_below_meaning G n r s hn
  · exact absurd (dif_neg h) hend

theorem settles_map {r : Nat → Result α} {r' : Result α} (f : α → β) (h : Settles r r') :
    Settles (fun n => (r n).map f) (r'.map f) :=
  h.on (fun _ _ => settles_const _) (settles_const _)

theorem settles_starLoop {p : Nat → List Char → Result α} {p' : List Char → Result α}
    (h : ∀ s, Settles (fun n => p n s) (p' s)) (k : Nat) :
    ∀ s, Settles (fun n => starLoop (p n) k s) (starLoop p' k s) := by
  induction k with
  | zero => exact fun _ => settles_const _
  | succ k ih => exact fun s => (h s).on (fun a t => settles_map _ (ih t)) (settles_const _)

/-- What comes of a text comes of it in a run with fuel. -/
theorem settles_eval {call : Nat → Calls V} {call' : Calls V}
    (h : ∀ r s, Settles (fun n => call n r s) (call' r s)) (e : Expression V α) :
    ∀ s, Settles (fun n => e.eval (call n) s) (e.eval call' s) := by
  induction e with
  | pure a => exact fun _ => settles_const _
  | sat p => exact fun s => by cases s <;> exact settles_const _
  | lit w => exact fun _ => settles_const _
  | rule r => exact h r
  | map f e ih => exact fun s => settles_map f (ih s)
  | seq f e ihf ihe =>
      exact fun s => (ihf s).on (fun g t => settles_map g (ihe t)) (settles_const _)
  | choice e e' ih ih' => exact fun s => (ih s).on (fun _ _ => settles_const _) (ih' s)
  | star e ih => exact fun s => settles_starLoop ih _ s
  | notAt e ih => exact fun s => (ih s).on (fun _ _ => settles_const _) (settles_const _)

theorem parse_of_run (G : Grammar V) {n : Nat} {e : Expression V α} {s : List Char}
    {x : Result α} (h : run G n e s = x) (hx : x ≠ .diverges) : parse G e s = x := by
  subst h
  exact (below_eval (iter_below_meaning G n) e s hx).symm

theorem run_of_parse (G : Grammar V) (e : Expression V α) (s : List Char)
    (h : parse G e s ≠ .diverges) : ∃ n, ∀ m ≥ n, run G m e s = parse G e s :=
  settles_eval (settles_meaning G) e s h

/-- **A rule means what its expression means.** -/
theorem parse_rule (G : Grammar V) (r : R) (s : List Char) :
    parse G (.rule r) s = parse G (G r) s := by
  change meaning G r s = _
  by_cases h : parse G (G r) s = .diverges
  · rw [h]
    by_contra hend
    obtain ⟨n, hn⟩ := settles_meaning G r s hend
    have hiter : iter G (n + 1) r s = meaning G r s := hn (n + 1) (Nat.le_succ n)
    have hbody : parse G (G r) s = meaning G r s :=
      parse_of_run G (n := n) hiter hend
    exact hend (hbody.symm.trans h)
  · obtain ⟨n, hn⟩ := run_of_parse G (G r) s h
    have hiter : iter G (n + 1) r s = parse G (G r) s := hn n (Nat.le_refl n)
    exact (iter_below_meaning G (n + 1) r s (hiter ▸ h)).symm.trans hiter

/-! ### What is left -/

theorem starLoop_suffix {p : List Char → Result α}
    (hp : ∀ s a t, p s = .ok a t → t <:+ s) (n : Nat) :
    ∀ s as t, starLoop p n s = .ok as t → t <:+ s := by
  induction n with
  | zero => exact fun s as t h => by cases h
  | succ n ih =>
      intro s as t h
      rw [starLoop] at h
      cases hs : p s with
      | ok a u =>
          rw [hs, on_ok] at h
          obtain ⟨as', v, hv, h⟩ := on_eq_ok h
          cases h
          exact (ih u as' t hv).trans (hp s a u hs)
      | fail =>
          rw [hs] at h
          cases h
          exact List.suffix_rfl
      | diverges =>
          rw [hs] at h
          cases h

/-- What an expression leaves is an end of the text. -/
theorem eval_suffix {call : Calls V} (hcall : ∀ r s a t, call r s = .ok a t → t <:+ s)
    (e : Expression V α) : ∀ s a t, e.eval call s = .ok a t → t <:+ s := by
  induction e with
  | pure a =>
      intro s b t h
      cases h
      exact List.suffix_rfl
  | sat p =>
      intro s b t h
      cases s with
      | nil => cases h
      | cons c s =>
          rw [Expression.eval] at h
          split at h
          · cases h
            exact List.suffix_cons _ _
          · cases h
  | lit w =>
      intro s b t h
      rw [Expression.eval] at h
      split at h
      · next u hu =>
          cases h
          exact ⟨_, (dropWord_eq_some_iff.mp hu).symm⟩
      · cases h
  | rule r => exact hcall r
  | map f e ih =>
      intro s b t h
      obtain ⟨a, u, hu, h⟩ := on_eq_ok h
      cases h
      exact ih s a t hu
  | seq f e ihf ihe =>
      intro s b t h
      obtain ⟨g, u, hu, h⟩ := on_eq_ok h
      obtain ⟨a, v, hv, h⟩ := on_eq_ok h
      cases h
      exact (ihe u a t hv).trans (ihf s g u hu)
  | choice e e' ih ih' =>
      intro s b t h
      rw [Expression.eval] at h
      cases hs : e.eval call s with
      | ok a u =>
          rw [hs] at h
          cases h
          exact ih s b t hs
      | fail =>
          rw [hs] at h
          exact ih' s b t h
      | diverges =>
          rw [hs] at h
          cases h
  | star e ih => exact fun s b t h => starLoop_suffix ih _ s b t h
  | notAt e ih =>
      intro s b t h
      rw [Expression.eval] at h
      cases hs : e.eval call s with
      | ok a u =>
          rw [hs] at h
          cases h
      | fail =>
          rw [hs] at h
          cases h
          exact List.suffix_rfl
      | diverges =>
          rw [hs] at h
          cases h

theorem iter_suffix (G : Grammar V) (n : Nat) :
    ∀ r s a t, iter G n r s = .ok a t → t <:+ s := by
  induction n with
  | zero => exact fun _ _ _ _ h => by cases h
  | succ n ih => exact fun r => eval_suffix ih (G r)

theorem parse_suffix (G : Grammar V) {e : Expression V α} {s t : List Char} {a : α}
    (h : parse G e s = .ok a t) : t <:+ s := by
  obtain ⟨n, hn⟩ := run_of_parse G e s (by simp [h])
  exact eval_suffix (iter_suffix G n) e s a t ((hn n (Nat.le_refl n)).trans h)

/-! ### The equations -/

/-- A body that consumes nothing goes on for ever. -/
theorem starLoop_stuck {p : List Char → Result α} {s : List Char} {a : α}
    (h : p s = .ok a s) (n : Nat) : starLoop p n s = .diverges := by
  induction n with
  | zero => rfl
  | succ n ih => rw [starLoop, h, on_ok, ih, map_diverges]

/-- So many rounds are enough. -/
theorem starLoop_enough {p : List Char → Result α}
    (hp : ∀ s a t, p s = .ok a t → t <:+ s) {n m : Nat} {s : List Char} (hn : s.length < n)
    (hm : s.length < m) : starLoop p n s = starLoop p m s := by
  induction n generalizing m s with
  | zero => omega
  | succ n ih =>
      cases m with
      | zero => omega
      | succ m =>
          rw [starLoop, starLoop]
          cases hs : p s with
          | ok a t =>
              have hsuffix := hp s a t hs
              rw [on_ok, on_ok]
              by_cases hlt : t.length < s.length
              · rw [ih (m := m) (by omega) (by omega)]
              · obtain rfl : t = s := hsuffix.eq_of_length_le (by omega)
                rw [starLoop_stuck hs, starLoop_stuck hs]
          | fail => rfl
          | diverges => rfl

section Equations

variable (G : Grammar V)

@[simp] theorem parse_pure (a : α) (s : List Char) :
    parse G (.pure a) s = .ok a s := rfl

@[simp] theorem parse_sat_nil (p : Char → Bool) : parse G (.sat p) [] = .fail := rfl

@[simp] theorem parse_sat_cons (p : Char → Bool) (c : Char) (s : List Char) :
    parse G (.sat p) (c :: s) = if p c then .ok c s else .fail := rfl

@[simp] theorem parse_map (f : α → β) (e : Expression V α) (s : List Char) :
    parse G (f <$> e) s = (parse G e s).map f := rfl

@[simp] theorem parse_seq (f : Expression V (α → β)) (e : Expression V α) (s : List Char) :
    parse G (f <*> e) s = (parse G f s).on (fun g t => (parse G e t).map g) .fail := rfl

@[simp] theorem parse_orElse (e e' : Expression V α) (s : List Char) :
    parse G (e <|> e') s = (parse G e s).on .ok (parse G e' s) := rfl

@[simp] theorem parse_notAt (e : Expression V α) (s : List Char) :
    parse G (.notAt e) s = (parse G e s).on (fun _ _ => .fail) (.ok () s) := rfl

theorem parse_lit (w : String) (s : List Char) :
    parse G (.lit w) s = (dropWord w.toList s).elim .fail (.ok w) := by
  cases h : dropWord w.toList s <;> simp [parse, Expression.eval, h]

@[simp] theorem parse_seqLeft (e : Expression V α) (e' : Expression V β) (s : List Char) :
    parse G (e <* e') s =
      (parse G e s).on (fun a t => (parse G e' t).map fun _ => a) .fail := by
  change ((parse G e s).map fun a _ => a).on _ _ = _
  cases parse G e s <;> rfl

@[simp] theorem parse_seqRight (e : Expression V α) (e' : Expression V β) (s : List Char) :
    parse G (e *> e') s = (parse G e s).on (fun _ t => parse G e' t) .fail := by
  change ((parse G e s).map fun _ b => b).on (fun g t => (parse G e' t).map g) _ = _
  cases parse G e s with
  | ok a t => cases h : parse G e' t <;> simp [h]
  | fail => rfl
  | diverges => rfl

theorem parse_star (e : Expression V α) (s : List Char) :
    parse G (.star e) s =
      (parse G e s).on (fun a t => (parse G (.star e) t).map (a :: ·)) (.ok [] s) := by
  change starLoop (parse G e) (s.length + 1) s = _
  rw [starLoop]
  cases hs : parse G e s with
  | ok a t =>
      have hsuffix : t.length ≤ s.length := (parse_suffix G hs).length_le
      rw [on_ok, on_ok]
      change (starLoop (parse G e) s.length t).map _ = (starLoop (parse G e) (t.length + 1) t).map _
      by_cases hlt : t.length < s.length
      · rw [starLoop_enough (fun _ _ _ h => parse_suffix G h) hlt (Nat.lt_succ_self _)]
      · obtain rfl : t = s := (parse_suffix G hs).eq_of_length_le (by omega)
        rw [starLoop_stuck hs, starLoop_stuck hs]
  | fail => rfl
  | diverges => rfl

theorem parse_plus (e : Expression V α) (s : List Char) :
    parse G e.plus s =
      (parse G e s).on (fun a t => (parse G (.star e) t).map (a :: ·)) .fail := by
  rw [Expression.plus, parse_seq, parse_map]
  cases parse G e s <;> rfl

/-- A loop that goes round at least once. -/
theorem parse_star_of_plus {e : Expression V α} {s t : List Char} {as : List α}
    (h : parse G e.plus s = .ok as t) : parse G (.star e) s = .ok as t := by
  rw [parse_plus] at h
  rw [parse_star]
  cases hs : parse G e s with
  | ok a u =>
      rw [hs] at h
      exact h
  | fail =>
      rw [hs] at h
      cases h
  | diverges =>
      rw [hs] at h
      cases h

theorem parse_opt (e : Expression V α) (s : List Char) :
    parse G e.opt s = (parse G e s).on (fun a t => .ok (some a) t) (.ok none s) := by
  rw [Expression.opt, parse_orElse, parse_map, parse_pure]
  cases parse G e s <;> rfl

/-- A loop over characters reads all that it can. -/
theorem parse_star_sat (p : Char → Bool) (s : List Char) :
    parse G (.star (.sat p)) s = .ok (s.takeWhile p) (s.dropWhile p) := by
  induction s with
  | nil =>
      rw [parse_star]
      rfl
  | cons c s ih =>
      rw [parse_star, parse_sat_cons]
      by_cases hc : p c = true
      · simp [hc, ih]
      · simp [hc]

end Equations

/-! ### First characters -/

/-- The expression reads nothing that begins with another character. -/
def Begins (G : Grammar V) (p : Char → Bool) (e : Expression V α) : Prop :=
  ∀ s : List Char, s.head?.any p = false → parse G e s = .fail

namespace Begins

variable {G : Grammar V} {p : Char → Bool}

/-- What is read has a first character. -/
theorem head_of_ok {e : Expression V α} (h : Begins G p e) {s t : List Char} {a : α}
    (hs : parse G e s = .ok a t) : s.head?.any p = true := by
  by_contra hnone
  rw [h s (by simpa using hnone)] at hs
  cases hs

theorem lit {w : String} (hw : w.toList.head?.any p = true) : Begins G p (.lit w) := by
  intro s hs
  rw [parse_lit]
  cases hl : w.toList with
  | nil =>
      rw [hl] at hw
      cases hw
  | cons c w =>
      cases s with
      | nil => rfl
      | cons d s =>
          have hc : p c = true := by simpa [hl] using hw
          have hd : p d = false := by simpa using hs
          have hcd : c ≠ d := by
            rintro rfl
            rw [hc] at hd
            cases hd
          rw [dropWord, if_neg hcd]
          rfl

theorem sat {q : Char → Bool} (hq : ∀ c, q c = true → p c = true) : Begins G p (.sat q) := by
  intro s hs
  cases s with
  | nil => rfl
  | cons c s =>
      have hc : ¬q c = true := by
        intro h
        simp [hq c h] at hs
      rw [parse_sat_cons, if_neg hc]

theorem rule {r : R} (h : Begins G p (G r)) : Begins G p (.rule r) := by
  intro s hs
  rw [parse_rule, h s hs]

theorem map {f : α → β} {e : Expression V α} (h : Begins G p e) : Begins G p (f <$> e) := by
  intro s hs
  rw [parse_map, h s hs, map_fail]

theorem seq {f : Expression V (α → β)} (h : Begins G p f) (e : Expression V α) :
    Begins G p (f <*> e) := by
  intro s hs
  rw [parse_seq, h s hs, on_fail]

theorem seqLeft {e : Expression V α} (h : Begins G p e) (e' : Expression V β) :
    Begins G p (e <* e') := by
  intro s hs
  rw [parse_seqLeft, h s hs, on_fail]

theorem seqRight {e : Expression V α} (h : Begins G p e) (e' : Expression V β) :
    Begins G p (e *> e') := by
  intro s hs
  rw [parse_seqRight, h s hs, on_fail]

theorem orElse {e e' : Expression V α} (h : Begins G p e) (h' : Begins G p e') :
    Begins G p (e <|> e') := by
  intro s hs
  rw [parse_orElse, h s hs, on_fail, h' s hs]

/-- A lookahead is no reading. -/
theorem notAt_lit {w : String} {e : Expression V α} (h : Begins G p e) :
    Begins G p (.notAt (.lit w) *> e) := by
  intro s hs
  rw [parse_seqRight, parse_notAt, parse_lit]
  cases dropWord w.toList s with
  | none => exact h s hs
  | some t => rfl

end Begins

end Peg
