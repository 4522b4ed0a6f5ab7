/-
Grammars whose runs end.

A run of a grammar ends if no rule calls itself before it has read anything, and no loop goes
round on nothing.  The first is shown by a rank: what a rule calls before it has read anything
has a smaller one.  Which expressions can succeed on nothing is approximated from above.

With `n` characters left and a bound on the ranks, `(n + 1) * bound` calls inside one another
are never exceeded, so that there is a run with that much fuel that has the meaning of the
grammar (`Ranked.parse_eq_run`), and the meaning can be computed.
-/
import Mathlib.Order.Basic
import Pup.Lib.Peg

namespace Peg

variable {R : Type} {V : R → Type} {α β : Type}

/-! ### What is read first -/

namespace Expression

/-- The expression may succeed without reading anything, if the rules `null` may. -/
def nullable (null : R → Bool) : {α : Type} → Expression V α → Bool
  | _, .pure _ => true
  | _, .sat _ => false
  | _, .lit w => w.toList.isEmpty
  | _, .rule r => null r
  | _, .map _ e => e.nullable null
  | _, .seq f e => f.nullable null && e.nullable null
  | _, .choice e e' => e.nullable null || e'.nullable null
  | _, .star _ => true
  | _, .notAt _ => true

/-- The rules that are called before anything has been read are among `head`, and no loop has
a body that reads nothing. -/
def guarded (null : R → Bool) : {α : Type} → (R → Bool) → Expression V α → Bool
  | _, _, .pure _ => true
  | _, _, .sat _ => true
  | _, _, .lit _ => true
  | _, head, .rule r => head r
  | _, head, .map _ e => e.guarded null head
  | _, head, .seq f e =>
      f.guarded null head && e.guarded null fun r => head r || !f.nullable null
  | _, head, .choice e e' => e.guarded null head && e'.guarded null head
  | _, head, .star e => e.guarded null head && !e.nullable null
  | _, head, .notAt e => e.guarded null head

end Expression

/-- A grammar in which no rule calls itself before it has read anything. -/
structure Ranked (G : Grammar V) where
  null : R → Bool
  rank : R → Nat
  bound : Nat
  null_of_nullable : ∀ r, (G r).nullable null = true → null r = true
  guarded : ∀ r, (G r).guarded null (fun r' => decide (rank r' < rank r)) = true
  rank_lt : ∀ r, rank r < bound

/-! ### What is left is shorter -/

/-- Rules leave an end of the text, and those that may not succeed on nothing a shorter one. -/
structure Shortens (null : R → Bool) (call : Calls V) : Prop where
  suffix : ∀ r s a t, call r s = .ok a t → t <:+ s
  lt : ∀ r s a t, call r s = .ok a t → null r = false → t.length < s.length

variable {null : R → Bool} {call : Calls V}

theorem Shortens.eval_le (hcall : Shortens null call) (e : Expression V α) {s t : List Char}
    {a : α} (h : e.eval call s = .ok a t) : t.length ≤ s.length :=
  (eval_suffix hcall.suffix e s a t h).length_le

/-- An expression that is not nullable reads something. -/
theorem Shortens.eval_lt (hcall : Shortens null call) (e : Expression V α) :
    e.nullable null = false → ∀ s a t, e.eval call s = .ok a t → t.length < s.length := by
  induction e with
  | pure a => exact fun h => by cases h
  | sat p =>
      intro _ s c t h
      cases s with
      | nil => cases h
      | cons d s =>
          rw [Expression.eval] at h
          split at h
          · cases h
            exact Nat.lt_succ_self _
          · cases h
  | lit w =>
      intro hnull s v t h
      rw [Expression.eval] at h
      cases hw : dropWord w.toList s with
      | none =>
          rw [hw] at h
          cases h
      | some u =>
          rw [hw] at h
          cases h
          rw [Expression.nullable, List.isEmpty_eq_false_iff] at hnull
          have hpos := List.length_pos_of_ne_nil hnull
          rw [dropWord_eq_some_iff.mp hw, List.length_append]
          omega
  | rule r => exact fun hnull s a t h => hcall.lt r s a t h hnull
  | map f e ih =>
      intro hnull s b t h
      obtain ⟨a, u, hu, h⟩ := Result.on_eq_ok h
      cases h
      exact ih hnull s a t hu
  | seq f e ihf ihe =>
      intro hnull s b t h
      obtain ⟨g, u, hu, h⟩ := Result.on_eq_ok h
      obtain ⟨a, v, hv, h⟩ := Result.on_eq_ok h
      cases h
      rcases Bool.and_eq_false_iff.mp hnull with hf | he
      · exact (hcall.eval_le e hv).trans_lt (ihf hf s g u hu)
      · exact (ihe he u a t hv).trans_le (hcall.eval_le f hu)
  | choice e e' ih ih' =>
      intro hnull s a t h
      obtain ⟨he, he'⟩ := Bool.or_eq_false_iff.mp hnull
      rw [Expression.eval] at h
      cases hs : e.eval call s with
      | ok b u =>
          rw [hs] at h
          cases h
          exact ih he s a t hs
      | fail =>
          rw [hs] at h
          exact ih' he' s a t h
      | diverges =>
          rw [hs] at h
          cases h
  | star e ih => exact fun h => by cases h
  | notAt e ih => exact fun h => by cases h

theorem Ranked.shortens {G : Grammar V} (h : Ranked G) (n : Nat) :
    Shortens h.null (iter G n) := by
  induction n with
  | zero => exact ⟨fun _ _ _ _ h => (by cases h), fun _ _ _ _ h => (by cases h)⟩
  | succ n ih =>
      refine ⟨iter_suffix G (n + 1), fun r s a t hs hnull => ?_⟩
      refine ih.eval_lt (G r) ?_ s a t hs
      cases hnullable : (G r).nullable h.null with
      | false => rfl
      | true =>
          rw [h.null_of_nullable r hnullable] at hnull
          cases hnull

/-! ### Runs end -/

/-- The rules end on all texts that are shorter than `n`, and those of `head` on texts of
length `n`. -/
def EndsBelow (call : Calls V) (head : R → Bool) (n : Nat) : Prop :=
  ∀ r t, t.length ≤ n → (t.length = n → head r = true) → call r t ≠ .diverges

theorem EndsBelow.mono {head : R → Bool} {n m : Nat} (h : EndsBelow call head n) (hm : m ≤ n) :
    EndsBelow call head m :=
  fun r t ht hhead => h r t (ht.trans hm) fun heq => hhead (by omega)

/-- After something has been read any rule may be called. -/
theorem EndsBelow.after {head : R → Bool} {n m : Nat} (h : EndsBelow call head n) (hm : m < n)
    (head' : R → Bool) : EndsBelow call head' m :=
  fun r t ht _ => h r t (by omega) fun heq => by omega

theorem starLoop_ends {p : List Char → Result α} {n : Nat}
    (hp : ∀ s, s.length ≤ n → p s ≠ .diverges)
    (hlt : ∀ s a t, p s = .ok a t → t.length < s.length) (k : Nat) :
    ∀ s, s.length ≤ n → s.length < k → starLoop p k s ≠ .diverges := by
  induction k with
  | zero => exact fun s _ h => by cases h
  | succ k ih =>
      intro s hs hk h
      rw [starLoop] at h
      cases hps : p s with
      | ok a u =>
          rw [hps, Result.on_ok] at h
          have hu := hlt s a u hps
          have hrest := ih u (by omega) (by omega)
          cases hr : starLoop p k u with
          | ok as t =>
              rw [hr] at h
              cases h
          | fail =>
              rw [hr] at h
              cases h
          | diverges => exact hrest hr
      | fail =>
          rw [hps] at h
          cases h
      | diverges => exact hp s hs hps

/-- An expression that is guarded ends. -/
theorem Shortens.eval_ends (hcall : Shortens null call) (e : Expression V α) :
    ∀ head s, e.guarded null head = true → EndsBelow call head s.length →
      e.eval call s ≠ .diverges := by
  induction e with
  | pure a => exact nofun
  | sat p =>
      intro head s _ _ h
      cases s with
      | nil => cases h
      | cons c s =>
          rw [Expression.eval] at h
          split at h <;> cases h
  | lit w =>
      intro head s _ _ h
      rw [Expression.eval] at h
      split at h <;> cases h
  | rule r => exact fun head s hhead hends => hends r s (Nat.le_refl _) fun _ => hhead
  | map f e ih =>
      intro head s hguarded hends h
      have hend := ih head s hguarded hends
      rw [Expression.eval] at h
      cases hs : e.eval call s with
      | ok a t =>
          rw [hs] at h
          cases h
      | fail =>
          rw [hs] at h
          cases h
      | diverges => exact hend hs
  | seq f e ihf ihe =>
      intro head s hguarded hends h
      obtain ⟨hf, he⟩ := Bool.and_eq_true_iff.mp hguarded
      rw [Expression.eval] at h
      cases hs : f.eval call s with
      | ok g t =>
          rw [hs, Result.on_ok] at h
          -- either something has been read, or what follows is at the beginning, too
          have hbelow : EndsBelow call (fun r => head r || !f.nullable null) t.length := by
            cases hnull : f.nullable null with
            | false => exact hends.after (hcall.eval_lt f hnull s g t hs) _
            | true =>
                simp only [Bool.not_true, Bool.or_false]
                exact hends.mono (hcall.eval_le f hs)
          have hrest := ihe _ t he hbelow
          cases hr : e.eval call t with
          | ok a u =>
              rw [hr] at h
              cases h
          | fail =>
              rw [hr] at h
              cases h
          | diverges => exact hrest hr
      | fail =>
          rw [hs] at h
          cases h
      | diverges => exact ihf head s hf hends hs
  | choice e e' ih ih' =>
      intro head s hguarded hends h
      obtain ⟨he, he'⟩ := Bool.and_eq_true_iff.mp hguarded
      rw [Expression.eval] at h
      cases hs : e.eval call s with
      | ok a t =>
          rw [hs] at h
          cases h
      | fail =>
          rw [hs] at h
          exact ih' head s he' hends h
      | diverges => exact ih head s he hends hs
  | star e ih =>
      intro head s hguarded hends
      obtain ⟨he, hnull⟩ := Bool.and_eq_true_iff.mp hguarded
      refine starLoop_ends (n := s.length) (fun t ht => ih head t he (hends.mono ht)) ?_ _ s
        (Nat.le_refl _) (Nat.lt_succ_self _)
      exact hcall.eval_lt e (by simpa using hnull)
  | notAt e ih =>
      intro head s hguarded hends h
      rw [Expression.eval] at h
      cases hs : e.eval call s with
      | ok a t =>
          rw [hs] at h
          cases h
      | fail =>
          rw [hs] at h
          cases h
      | diverges => exact ih head s hguarded hends hs

variable {G : Grammar V}

/-- A rule ends, with fuel for the calls that it makes on a text of the length. -/
theorem Ranked.iter_ends (h : Ranked G) (n : Nat) :
    ∀ r s, s.length * h.bound + h.rank r < n → iter G n r s ≠ .diverges := by
  induction n with
  | zero => exact fun r s hn => by cases hn
  | succ n ih =>
      intro r s hn
      refine (h.shortens n).eval_ends (G r) _ s (h.guarded r) fun r' t ht hhead => ih r' t ?_
      rcases Nat.lt_or_eq_of_le ht with hlt | heq
      · have hmul := Nat.mul_le_mul_right h.bound (Nat.succ_le_of_lt hlt)
        rw [Nat.succ_mul] at hmul
        have hrank := h.rank_lt r'
        omega
      · have hrank : h.rank r' < h.rank r := of_decide_eq_true (hhead heq)
        rw [heq]
        omega

/-- **With enough fuel a run has the meaning of the grammar.** -/
theorem Ranked.parse_eq_run (h : Ranked G) (r : R) (s : List Char) :
    parse G (.rule r) s = run G ((s.length + 1) * h.bound) (.rule r) s := by
  have hfuel : s.length * h.bound + h.rank r < (s.length + 1) * h.bound := by
    rw [Nat.succ_mul]
    exact Nat.add_lt_add_left (h.rank_lt r) _
  exact parse_of_run G rfl (h.iter_ends _ r s hfuel)

/-- **A rule ends on every text.** -/
theorem Ranked.parse_ends (h : Ranked G) (r : R) (s : List Char) :
    parse G (.rule r) s ≠ .diverges := by
  rw [h.parse_eq_run]
  refine h.iter_ends _ r s ?_
  rw [Nat.succ_mul]
  exact Nat.add_lt_add_left (h.rank_lt r) _

end Peg
