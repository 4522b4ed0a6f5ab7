/-
What the runtime answers to a program over integers.

The calls that a sum does not make are comparisons, the two instances that these yield, and
safepoints.  `Outcome` is what comes of a computation of the interpreter: there are too few
answers left, or so many have been given and the rest is known of what it has come to.  It is
composed along the computation (`Outcome.bind`), and each call is one of them.
-/
import Pup.Integers.Language

namespace Pup.Integers

open Imp Parse
open Codegen (Interp)

variable {β γ : Type}

/-! ### The platform -/

/-- What the runtime does on comparisons and literals. -/
def answer (P : Platform) (s : Runtime.State) (c : Codegen.Call Answer) :
    Except Runtime.Stop (Runtime.State × Answer) :=
  match c with
  | .getTrueinstance => .ok (s, .ref (s.env.object_true.getD 0))
  | .getFalseinstance => .ok (s, .ref (s.env.object_false.getD 0))
  | .invoke (.ref target) (.sym name) args => do
      match ← Runtime.pupInvoke s (some target) name with
      | .pup_fixnum_op_equals => do
          let r ← Runtime.pupFixnumOpEquals s (some target) (args.map Answer.object)
          return (s, .ref (r.getD 0))
      | .pup_fixnum_op_lessthan => do
          let r ← Runtime.pupFixnumOpLessthan s (some target) (args.map Answer.object)
          return (s, .ref (r.getD 0))
      | _ => P.other s c
  | c => P.other s c

/-- The platform with the calls that a program over integers makes. -/
def comparing (P : Platform) : Platform := { P with other := answer P }

/-- Nothing is collected at a safepoint. -/
def Calm (P : Platform) : Prop := ∀ s, ∃ v, P.other s .safepoint = .ok (s, v)

/-! ### Outcomes -/

section Outcomes

variable (P : Platform) (s₀ : Runtime.State) (main : Runtime.Ref)

/-- What comes of a computation that wants so many answers. -/
inductive Outcome (σ : Codegen.State Answer) (count : Nat)
    (post : β → Codegen.State Answer → Runtime.State → Prop) :
    Option β × Codegen.State Answer → Prop
  | waits {σ' : Codegen.State Answer} (h : σ.world.left < count) : Outcome σ count post (none, σ')
  | goes {b : β} {σ' : Codegen.State Answer} {s' : Runtime.State}
      (hat : At (comparing P) s₀ main σ' s') (hleft : σ'.world.left + count = σ.world.left)
      (hpost : post b σ' s') : Outcome σ count post (some b, σ')

/-- The runtime of the platform. -/
abbrev runs : Codegen.Runtime Answer := runtime (comparing P) s₀ main

end Outcomes

variable {P : Platform} {s₀ : Runtime.State} {main : Runtime.Ref} {σ : Codegen.State Answer}
  {s : Runtime.State} {count n : Nat}

theorem Outcome.bind {post : β → Codegen.State Answer → Runtime.State → Prop}
    {post' : γ → Codegen.State Answer → Runtime.State → Prop} {x : Interp Answer β}
    {f : β → Interp Answer γ} (h : Outcome P s₀ main σ count post (x σ))
    (hf : ∀ b σ' s', At (comparing P) s₀ main σ' s' → post b σ' s' →
      σ'.world.left + count = σ.world.left → Outcome P s₀ main σ' n post' (f b σ')) :
    Outcome P s₀ main σ (count + n) post' ((x >>= f) σ) := by
  generalize hx : x σ = o at h
  cases h with
  | waits hlt =>
      rw [Codegen.interp_bind_none hx]
      exact .waits (hlt.trans_le (Nat.le_add_right ..))
  | @goes b σ' s' hat hleft hpost =>
      rw [Codegen.interp_bind_some hx]
      have hrest := hf b σ' s' hat hpost hleft
      generalize f b σ' = o at hrest
      cases hrest with
      | waits hlt => exact .waits (by omega)
      | goes hat' hleft' hpost' => exact .goes hat' (by omega) hpost'

theorem outcome_pure {post : β → Codegen.State Answer → Runtime.State → Prop} {b : β}
    (hat : At (comparing P) s₀ main σ s) (hpost : post b σ s) :
    Outcome P s₀ main σ 0 post ((pure b : Interp Answer β) σ) := .goes hat rfl hpost

theorem Outcome.mono {post post' : β → Codegen.State Answer → Runtime.State → Prop}
    {o : Option β × Codegen.State Answer} (h : Outcome P s₀ main σ count post o)
    (hpost : ∀ b σ' s', post b σ' s' → post' b σ' s') : Outcome P s₀ main σ count post' o := by
  cases h with
  | waits hlt => exact .waits hlt
  | goes hat hleft h => exact .goes hat hleft (hpost _ _ _ h)

/-! ### Calls -/

/-- A call that the runtime handles. -/
theorem outcome_call {c : Codegen.Call Answer} {s' : Runtime.State} {v : Answer}
    (hat : At (comparing P) s₀ main σ s) (hs' : Runtime.Typed s')
    (hc : (comparing P).handle s c = .ok (s', v)) (htrue : c ≠ .getTrueinstance)
    (hfalse : c ≠ .getFalseinstance) :
    Outcome P s₀ main σ 1 (fun a σ' s'' => a = v ∧ s'' = s' ∧ σ'.locals = σ.locals)
      (Interp.call (runs P s₀ main) c σ) := by
  have hlocals : ∀ o, Interp.call (runs P s₀ main) c σ = o → o.2.locals = σ.locals := by
    rintro _ rfl
    rfl
  rcases call_handled hat hc htrue hfalse with ⟨hleft, σ', hcall⟩ | ⟨σ', hcall, hleft, hreplay⟩
  · rw [hcall]
    exact .waits (by omega)
  · have hsame := hlocals _ hcall
    rw [hcall]
    exact .goes ⟨hs', v, hreplay⟩ hleft ⟨rfl, rfl, hsame⟩

/-- The object of a boolean. -/
def instance_ (b : Bool) : Answer := .ref (if b then 8 else 9)

/-- The instances are there from the beginning. -/
theorem outcome_instance (b : Bool) (hat : At (comparing P) s₀ main σ s)
    (hs₀ : Runtime.Typed s₀) :
    Outcome P s₀ main σ 0 (fun a σ' s' => a = instance_ b ∧ s' = s ∧ σ'.locals = σ.locals)
      (Interp.call (runs P s₀ main) (if b then .getTrueinstance else .getFalseinstance) σ) := by
  obtain ⟨htyped, v₀, hv₀⟩ := hat
  have hreplay : replay (comparing P) s₀ main
      (σ.world.calls ++ [if b then .getTrueinstance else .getFalseinstance]) =
        .ok (s, instance_ b) := by
    rw [replay_concat, hv₀]
    cases b
    · exact congrArg (fun env => Except.ok (s, Answer.ref (env.object_false.getD 0))) htyped.env
    · exact congrArg (fun env => Except.ok (s, Answer.ref (env.object_true.getD 0))) htyped.env
  have hanswer : Interp.call (runs P s₀ main)
      (if b then .getTrueinstance else .getFalseinstance) σ =
      (some (instance_ b), { σ with world :=
        ⟨σ.world.calls ++ [if b then .getTrueinstance else .getFalseinstance], σ.world.left⟩ }) := by
    cases b
    · exact congrArg (fun env => (some (Answer.ref (env.object_false.getD 0)), _)) hs₀.env
    · exact congrArg (fun env => (some (Answer.ref (env.object_true.getD 0)), _)) hs₀.env
  rw [hanswer]
  exact .goes ⟨htyped, _, hreplay⟩ rfl ⟨rfl, rfl, rfl⟩

/-- A method of Fixnum that the runtime has. -/
theorem outcome_invoke {l r : Runtime.Ref} {name : String} {s' : Runtime.State} {v : Answer}
    (hat : At (comparing P) s₀ main σ s) (hs' : Runtime.Typed s')
    (hinvoke : (comparing P).handle s (.invoke (.ref l) (.sym name) [.ref r]) = .ok (s', v)) :
    Outcome P s₀ main σ 2 (fun a σ' s'' => a = v ∧ s'' = s' ∧ σ'.locals = σ.locals)
      (Interp.invoke (runs P s₀ main) (.ref l) name [.ref r] σ) := by
  have hsym : (comparing P).handle s (.strToSym name) = .ok (s, .sym name) := rfl
  rw [Interp.invoke]
  show Outcome P s₀ main σ (1 + 1) _ _
  refine (outcome_call hat hat.1 hsym (fun h => by cases h) fun h => by cases h).bind fun sym σ' s₁ hat₁ hpost _ => ?_
  obtain ⟨rfl, rfl, hlocals⟩ := hpost
  refine (outcome_call hat₁ hs' hinvoke (fun h => by cases h) fun h => by cases h).mono ?_
  rintro a σ'' s'' ⟨rfl, rfl, hlocals'⟩
  exact ⟨rfl, rfl, hlocals'.trans hlocals⟩

section Fixnums

variable {l r : Runtime.Ref} {a b : BitVec 32}

theorem handle_plus (hs : Runtime.Typed s) (hl : s.fixnum (some l) = .ok a)
    (hr : s.fixnum (some r) = .ok b) :
    (comparing P).handle s (.invoke (.ref l) (.sym "+") [.ref r]) =
      .ok ((Runtime.pupFixnumCreate s (P.add a b)).1,
        .ref (Runtime.pupFixnumCreate s (P.add a b)).2) := by
  have hinvoke : Runtime.pupInvoke s (some l) "+" = .ok .pup_fixnum_plus :=
    hs.pupInvoke_builtin hl rfl
  have hplus := hs.pupFixnumPlus_ok P.add hl hr
  simp [Platform.handle, hinvoke, hplus, bind, Except.bind, pure, Except.pure, Answer.object,
    comparing]

theorem handle_less (hs : Runtime.Typed s) (hl : s.fixnum (some l) = .ok a)
    (hr : s.fixnum (some r) = .ok b) :
    (comparing P).handle s (.invoke (.ref l) (.sym "<") [.ref r]) =
      .ok (s, instance_ (a.slt b)) := by
  have hinvoke : Runtime.pupInvoke s (some l) "<" = .ok .pup_fixnum_op_lessthan :=
    hs.pupInvoke_builtin hl rfl
  have hless : Runtime.pupFixnumOpLessthan s (some l) [some r] = _ :=
    hs.pupFixnumCompare_ok BitVec.slt hl hr
  cases hholds : a.slt b <;>
    simp [Platform.handle, hinvoke, hless, hholds, bind, Except.bind, pure, Except.pure,
      Answer.object, comparing, answer, instance_, hs.env, Runtime.startedEnv]

theorem handle_equal (hs : Runtime.Typed s) (hl : s.fixnum (some l) = .ok a)
    (hr : s.fixnum (some r) = .ok b) :
    (comparing P).handle s (.invoke (.ref l) (.sym "==") [.ref r]) =
      .ok (s, instance_ (a == b)) := by
  have hinvoke : Runtime.pupInvoke s (some l) "==" = .ok .pup_fixnum_op_equals :=
    hs.pupInvoke_builtin hl rfl
  have hequal : Runtime.pupFixnumOpEquals s (some l) [some r] = _ :=
    hs.pupFixnumCompare_ok (fun left right => left == right) hl hr
  cases hholds : a == b <;>
    simp [Platform.handle, hinvoke, hequal, hholds, bind, Except.bind, pure, Except.pure,
      Answer.object, comparing, answer, instance_, hs.env, Runtime.startedEnv]

end Fixnums

end Pup.Integers
