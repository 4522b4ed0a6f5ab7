/-
What a parsing expression has read.

A run that ends well is a derivation: every part of an expression has read a piece of the text,
with the rest of the text behind it, and where the expression looked ahead or chose the second
alternative something else had failed.  Whatever the productions keep holds of what the rules
read (`parse_rule_induction`), so that a fact about all runs needs one case for each rule and
neither fuel nor a loop.  `Yields` is what can be said of the value alone.
-/
import Pup.Lib.Peg

namespace Peg

variable {R : Type} {V : R → Type} {α β : Type}

/-- What holds of a rule's value, the piece it read and the text behind that. -/
abbrev Readings (V : R → Type) : Type := (r : R) → V r → List Char → List Char → Prop

/-- The rounds of a loop, which stops in front of `t`. -/
inductive Rounds (Q : α → List Char → List Char → Prop) (Stops : List Char → Prop) :
    List α → List Char → List Char → Prop
  | nil {t : List Char} (h : Stops t) : Rounds Q Stops [] [] t
  | cons {a : α} {as : List α} {x y t : List Char} (h : Q a x (y ++ t))
      (hs : Rounds Q Stops as y t) : Rounds Q Stops (a :: as) (x ++ y) t

/-- The expression yields the value from the piece `x` in front of `t`. -/
def Expression.Reads (G : Grammar V) (Q : Readings V) :
    {α : Type} → Expression V α → α → List Char → List Char → Prop
  | _, .pure a, b, x, _ => b = a ∧ x = []
  | _, .sat p, c, x, _ => p c = true ∧ x = [c]
  | _, .lit w, v, x, _ => v = w ∧ x = w.toList
  | _, .rule r, a, x, t => Q r a x t
  | _, .map f e, b, x, t => ∃ a, e.Reads G Q a x t ∧ b = f a
  | _, .seq f e, b, z, t =>
      ∃ g a x y, f.Reads G Q g x (y ++ t) ∧ e.Reads G Q a y t ∧ b = g a ∧ z = x ++ y
  | _, .choice e e', a, x, t =>
      e.Reads G Q a x t ∨ parse G e (x ++ t) = .fail ∧ e'.Reads G Q a x t
  | _, .star e, as, x, t => Rounds (e.Reads G Q) (fun t => parse G e t = .fail) as x t
  | _, .notAt e, _, x, t => parse G e t = .fail ∧ x = []

open Expression

section Forms

variable {G : Grammar V} {Q : Readings V} {x z t : List Char}

@[simp] theorem reads_pure {a b : α} : (pure a : Expression V α).Reads G Q b x t ↔ b = a ∧ x = [] :=
  Iff.rfl

@[simp] theorem reads_sat {p : Char → Bool} {c : Char} :
    (sat p : Expression V Char).Reads G Q c x t ↔ p c = true ∧ x = [c] := Iff.rfl

@[simp] theorem reads_lit {w v : String} :
    (lit w : Expression V String).Reads G Q v x t ↔ v = w ∧ x = w.toList := Iff.rfl

@[simp] theorem reads_rule {r : R} {a : V r} :
    (rule r : Expression V (V r)).Reads G Q a x t ↔ Q r a x t := Iff.rfl

@[simp] theorem reads_map {f : α → β} {e : Expression V α} {b : β} :
    (f <$> e).Reads G Q b x t ↔ ∃ a, e.Reads G Q a x t ∧ b = f a := Iff.rfl

@[simp] theorem reads_seq {f : Expression V (α → β)} {e : Expression V α} {b : β} :
    (f <*> e).Reads G Q b z t ↔
      ∃ g a x y, f.Reads G Q g x (y ++ t) ∧ e.Reads G Q a y t ∧ b = g a ∧ z = x ++ y := Iff.rfl

@[simp] theorem reads_seqLeft {e : Expression V α} {e' : Expression V β} {a : α} :
    (e <* e').Reads G Q a z t ↔
      ∃ b x y, e.Reads G Q a x (y ++ t) ∧ e'.Reads G Q b y t ∧ z = x ++ y := by
  constructor
  · rintro ⟨-, b, x, y, ⟨a, ha, rfl⟩, hb, rfl, hz⟩
    exact ⟨b, x, y, ha, hb, hz⟩
  · rintro ⟨b, x, y, ha, hb, hz⟩
    exact ⟨_, b, x, y, ⟨a, ha, rfl⟩, hb, rfl, hz⟩

@[simp] theorem reads_seqRight {e : Expression V α} {e' : Expression V β} {b : β} :
    (e *> e').Reads G Q b z t ↔
      ∃ a x y, e.Reads G Q a x (y ++ t) ∧ e'.Reads G Q b y t ∧ z = x ++ y := by
  constructor
  · rintro ⟨-, b, x, y, ⟨a, ha, rfl⟩, hb, rfl, hz⟩
    exact ⟨a, x, y, ha, hb, hz⟩
  · rintro ⟨a, x, y, ha, hb, hz⟩
    exact ⟨_, b, x, y, ⟨a, ha, rfl⟩, hb, rfl, hz⟩

@[simp] theorem reads_orElse {e e' : Expression V α} {a : α} :
    (e <|> e').Reads G Q a x t ↔
      e.Reads G Q a x t ∨ parse G e (x ++ t) = .fail ∧ e'.Reads G Q a x t := Iff.rfl

@[simp] theorem reads_notAt {e : Expression V α} {u : Unit} :
    (notAt e).Reads G Q u x t ↔ parse G e t = .fail ∧ x = [] := Iff.rfl

@[simp] theorem reads_star {e : Expression V α} {as : List α} :
    (star e).Reads G Q as x t ↔ Rounds (e.Reads G Q) (fun t => parse G e t = .fail) as x t :=
  Iff.rfl

theorem reads_opt {e : Expression V α} {a : Option α} (h : (opt e).Reads G Q a x t) :
    a = none ∧ x = [] ∨ ∃ b, a = some b ∧ e.Reads G Q b x t := by
  rcases h with ⟨b, hb, rfl⟩ | ⟨-, h⟩
  · exact .inr ⟨b, rfl, hb⟩
  · exact .inl h

theorem reads_plus {e : Expression V α} {as : List α} (h : (plus e).Reads G Q as z t) :
    ∃ b bs x y, as = b :: bs ∧ z = x ++ y ∧ e.Reads G Q b x (y ++ t) ∧
      Rounds (e.Reads G Q) (fun t => parse G e t = .fail) bs y t := by
  obtain ⟨-, bs, x, y, ⟨b, hb, rfl⟩, hbs, rfl, hz⟩ := h
  exact ⟨b, bs, x, y, rfl, hz, hb, hbs⟩

end Forms

/-! ### Runs are derivations -/

variable {G : Grammar V} {Q : Readings V}

theorem parse_fail_of_eval {n : Nat} {e : Expression V α} {s : List Char}
    (h : e.eval (iter G n) s = .fail) : parse G e s = .fail := parse_of_run G h (by simp)

theorem starLoop_reads {e : Expression V α} {n : Nat}
    (he : ∀ s a t, e.eval (iter G n) s = .ok a t → ∃ x, s = x ++ t ∧ e.Reads G Q a x t) (k : Nat) :
    ∀ s as t, starLoop (e.eval (iter G n)) k s = .ok as t →
      ∃ x, s = x ++ t ∧ (star e).Reads G Q as x t := by
  induction k with
  | zero => exact fun s as t h => by cases h
  | succ k ih =>
      intro s as t h
      rw [starLoop] at h
      cases hs : e.eval (iter G n) s with
      | ok a u =>
          rw [hs, Result.on_ok] at h
          obtain ⟨as', v, hv, h⟩ := Result.on_eq_ok h
          cases h
          obtain ⟨x, hx, ha⟩ := he s a u hs
          obtain ⟨y, rfl, has⟩ := ih u as' t hv
          exact ⟨x ++ y, by rw [hx, List.append_assoc], .cons ha has⟩
      | fail =>
          rw [hs] at h
          cases h
          exact ⟨[], rfl, .nil (parse_fail_of_eval hs)⟩
      | diverges =>
          rw [hs] at h
          cases h

/-- What an expression yields, it has read. -/
theorem eval_reads {n : Nat}
    (hcall : ∀ r s a t, iter G n r s = .ok a t → ∃ x, s = x ++ t ∧ Q r a x t)
    (e : Expression V α) :
    ∀ s a t, e.eval (iter G n) s = .ok a t → ∃ x, s = x ++ t ∧ e.Reads G Q a x t := by
  induction e with
  | pure a =>
      intro s b t h
      cases h
      exact ⟨[], rfl, rfl, rfl⟩
  | sat p =>
      intro s c t h
      cases s with
      | nil => cases h
      | cons d s =>
          rw [Expression.eval] at h
          by_cases hd : p d = true
          · rw [if_pos hd] at h
            cases h
            exact ⟨[c], rfl, hd, rfl⟩
          · rw [if_neg hd] at h
            cases h
  | lit w =>
      intro s v t h
      rw [Expression.eval] at h
      cases hw : dropWord w.toList s with
      | none =>
          rw [hw] at h
          cases h
      | some u =>
          rw [hw] at h
          cases h
          exact ⟨w.toList, dropWord_eq_some_iff.mp hw, rfl, rfl⟩
  | rule r => exact hcall r
  | map f e ih =>
      intro s b t h
      obtain ⟨a, u, hu, h⟩ := Result.on_eq_ok h
      cases h
      obtain ⟨x, hx, ha⟩ := ih s a t hu
      exact ⟨x, hx, a, ha, rfl⟩
  | seq f e ihf ihe =>
      intro s b t h
      obtain ⟨g, u, hu, h⟩ := Result.on_eq_ok h
      obtain ⟨a, v, hv, h⟩ := Result.on_eq_ok h
      cases h
      obtain ⟨x, rfl, hg⟩ := ihf s g u hu
      obtain ⟨y, rfl, ha⟩ := ihe u a t hv
      exact ⟨x ++ y, (List.append_assoc x y t).symm, g, a, x, y, hg, ha, rfl, rfl⟩
  | choice e e' ih ih' =>
      intro s a t h
      rw [Expression.eval] at h
      cases hs : e.eval (iter G n) s with
      | ok b u =>
          rw [hs] at h
          cases h
          obtain ⟨x, hx, ha⟩ := ih s a t hs
          exact ⟨x, hx, .inl ha⟩
      | fail =>
          rw [hs] at h
          obtain ⟨x, rfl, ha⟩ := ih' s a t h
          exact ⟨x, rfl, .inr ⟨parse_fail_of_eval hs, ha⟩⟩
      | diverges =>
          rw [hs] at h
          cases h
  | star e ih => exact fun s as t h => starLoop_reads ih _ s as t h
  | notAt e ih =>
      intro s u t h
      rw [Expression.eval] at h
      cases hs : e.eval (iter G n) s with
      | ok a v =>
          rw [hs] at h
          cases h
      | fail =>
          rw [hs] at h
          cases h
          exact ⟨[], rfl, parse_fail_of_eval hs, rfl⟩
      | diverges =>
          rw [hs] at h
          cases h

/-- **What the productions keep holds of all that the rules read.** -/
theorem parse_rule_induction
    (h : ∀ r a x t, parse G (.rule r) (x ++ t) = .ok a t → (G r).Reads G Q a x t → Q r a x t)
    {r : R} {s : List Char} {a : V r} {t : List Char} (hs : parse G (.rule r) s = .ok a t) :
    ∃ x, s = x ++ t ∧ Q r a x t := by
  have hiter : ∀ n r s a t, iter G n r s = .ok a t → ∃ x, s = x ++ t ∧ Q r a x t := by
    intro n
    induction n with
    | zero => exact fun _ _ _ _ h => by cases h
    | succ n ih =>
        intro r s a t hs
        obtain ⟨x, rfl, hx⟩ := eval_reads ih (G r) s a t hs
        refine ⟨x, rfl, h r a x t ?_ hx⟩
        exact parse_of_run G (n := n + 1) (e := .rule r) hs (by simp)
  obtain ⟨n, hn⟩ := run_of_parse G (.rule r) s (by simp [hs])
  exact hiter n r s a t ((hn n (Nat.le_refl n)).trans hs)

/-! ### Values -/

/-- Whatever value the expression yields has the property. -/
def Yields (G : Grammar V) (Q : Readings V) (P : α → Prop) (e : Expression V α) : Prop :=
  ∀ a x t, e.Reads G Q a x t → P a

namespace Yields

variable {P P' : α → Prop}

theorem imp {e : Expression V α} (h : Yields G Q P e) (hP : ∀ a, P a → P' a) : Yields G Q P' e :=
  fun a x t ha => hP a (h a x t ha)

theorem sat {p : Char → Bool} : Yields G Q (fun c => p c = true) (.sat p) :=
  fun _ _ _ h => h.1

theorem lit {w : String} : Yields G Q (fun v => v = w) (.lit w) := fun _ _ _ h => h.1

theorem map {f : α → β} {e : Expression V α} {P : α → Prop} {P' : β → Prop}
    (h : Yields G Q P e) (hf : ∀ a, P a → P' (f a)) : Yields G Q P' (f <$> e) := by
  rintro b x t ⟨a, ha, rfl⟩
  exact hf a (h a x t ha)

/-- What the function makes of the values of the expression. -/
theorem seq {f : Expression V (α → β)} {e : Expression V α} {P : α → Prop} {P' : β → Prop}
    (hf : Yields G Q (fun g => ∀ a, P a → P' (g a)) f) (he : Yields G Q P e) :
    Yields G Q P' (f <*> e) := by
  rintro b z t ⟨g, a, x, y, hg, ha, rfl, -⟩
  exact hf g x _ hg a (he a y t ha)

theorem seqLeft {e : Expression V α} {e' : Expression V β} (h : Yields G Q P e) :
    Yields G Q P (e <* e') := by
  intro a z t ha
  obtain ⟨b, x, y, ha, -, -⟩ := reads_seqLeft.mp ha
  exact h a x _ ha

theorem seqRight {e' : Expression V β} {e : Expression V α} (h : Yields G Q P e) :
    Yields G Q P (e' *> e) := by
  intro a z t ha
  obtain ⟨b, x, y, -, ha, -⟩ := reads_seqRight.mp ha
  exact h a y t ha

theorem orElse {e e' : Expression V α} (h : Yields G Q P e) (h' : Yields G Q P e') :
    Yields G Q P (e <|> e') := by
  rintro a x t (ha | ⟨-, ha⟩)
  · exact h a x t ha
  · exact h' a x t ha

theorem opt {e : Expression V α} (h : Yields G Q P e) :
    Yields G Q (fun v => ∀ a ∈ v, P a) (opt e) := by
  intro v x t hv a ha
  rcases reads_opt hv with ⟨rfl, -⟩ | ⟨b, rfl, hb⟩
  · cases ha
  · cases ha
    exact h a x t hb

theorem star {e : Expression V α} (h : Yields G Q P e) :
    Yields G Q (fun as => ∀ a ∈ as, P a) (star e) := by
  intro as x t hx
  induction hx with
  | nil _ => exact List.forall_mem_nil _
  | @cons a as x y t ha _ ih => exact List.forall_mem_cons.mpr ⟨h a x _ ha, ih⟩

theorem plus {e : Expression V α} (h : Yields G Q P e) :
    Yields G Q (fun as => ∀ a ∈ as, P a) (plus e) := by
  intro as z t hz
  obtain ⟨b, bs, x, y, rfl, -, hb, hbs⟩ := reads_plus hz
  exact List.forall_mem_cons.mpr ⟨h b x _ hb, h.star bs y t hbs⟩

end Yields

end Peg
