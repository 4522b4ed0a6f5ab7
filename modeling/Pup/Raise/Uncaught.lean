/-
What becomes of an exception that nothing rescues.

`build_real_main_fn` gives `main` a landing pad around its call of `pup_env_launch_main`,
and that landing pad reports the exception.  `pup_env_launch_main` does not run `pup_main`,
though: it makes a thread that does, and waits for it.

The machine below has the two threads.  What the program does between two raises is not
restricted: a function may call any other, be in a call with any landing pad or none, and
return at any time.  The unwinder is a parameter, of which two things are assumed: that it
only finds frames of the thread that raises, and that it reports the end of the stack when
none of them handles.
-/
import Pup.Lib.Machine

namespace Pup.Raise

open Transition

/-! ### The process -/

/-- An exception object. -/
abbrev Exc := Nat

/-- Which exceptions the rescue clauses of a `begin` match. -/
abbrev Clauses := Exc → Bool

/-- A function that is being executed, with the landing pad of the call it is in. -/
inductive Frame
  | realMain
  | launchMain
  | doMain
  | generated (pad : Option Clauses)
  | runtime

/-- The personality finds a handler in the frame. -/
def Frame.handles : Frame → Bool
  | .realMain => true
  | .generated (some _) => true
  | _ => false

inductive Status
  | running
  /-- In the landing pad of the innermost frame. -/
  | landed (e : Exc)
  | aborted
  | exited (code : Nat)
  /-- In `pup_handle_uncaught_exception`, which exits with status 1. -/
  | reported (e : Exc)

/-- The stacks of the two threads, innermost frame first. -/
structure Process where
  main : List Frame
  created : Option (List Frame)
  status : Status

/-- `_Unwind_RaiseException`: the thread and the depth of the frame it resumes, from the stacks
of all threads and the thread that raises; `none` is `_URC_END_OF_STACK`. -/
abbrev RaiseException := List (List Frame) → Nat → Option (Nat × Nat)

/-- What is assumed of the unwinder. -/
structure SearchesOwnFrames (raiseException : RaiseException) : Prop where
  own : ∀ threads thread t depth, raiseException threads thread = some (t, depth) →
    t = thread ∧ ∃ stack frame, threads[t]? = some stack ∧ stack[depth]? = some frame ∧
      frame.handles
  endOfStack : ∀ threads thread stack, threads[thread]? = some stack →
    (∀ frame ∈ stack, ¬ frame.handles) → raiseException threads thread = none

inductive Action
  /-- `pup_env_launch_main` creates the thread. -/
  | launch
  /-- `pthread_attr_init` fails, and `pup_env_launch_main` returns 1. -/
  | attrFails
  /-- `pthread_create` fails. -/
  | createFails
  | call (frame : Frame)
  /-- The innermost function goes on to a call with this landing pad. -/
  | goOn (pad : Option Clauses)
  | return_
  /-- `pup_raise`. -/
  | raise (e : Exc)
  | rescue
  /-- `pup_rethrow_uncaught_exception`. -/
  | rethrow

/-- The frame is one that the program may push. -/
def Frame.callable : Frame → Bool
  | .generated none => true
  | .runtime => true
  | _ => false

/-- A frame is resumed at its landing pad. -/
def resume (p : Process) (e : Exc) (stack : List Frame) (depth : Nat) : Process :=
  match stack[depth]? with
  | some .realMain => { p with status := .reported e }
  | some frame => { p with created := some (frame :: stack.drop (depth + 1)), status := .landed e }
  | none => { p with status := .aborted }

/-- `e` is raised on the created thread, whose stack is `stack`; a raise that comes back
aborts. -/
def raiseOn (raiseException : RaiseException) (p : Process) (e : Exc) (stack : List Frame) :
    Process :=
  match raiseException [p.main, stack] 1 with
  | none => { p with status := .aborted }
  | some (t, depth) => resume p e (if t = 0 then p.main else stack) depth

/-- The exception that an action raises, and the stack it is raised on. -/
def raising (p : Process) (a : Action) : Option (Exc × List Frame) :=
  match p.status, a, p.created with
  | .running, .raise e, some (.runtime :: stack) => some (e, .runtime :: stack)
  | .landed e, .rethrow, some (.generated (some clauses) :: stack) =>
      if clauses e then none else some (e, .generated none :: stack)
  | _, _, _ => none

/-- What the other actions do. -/
def proceed (p : Process) (a : Action) : Option Process :=
  match p.status, a, p.created with
  | .running, .launch, none =>
      some { p with main := [.launchMain, .realMain], created := some [.generated none, .doMain] }
  | .running, .attrFails, none => some { p with status := .exited 0 }
  | .running, .createFails, none => some { p with status := .aborted }
  | .running, .call frame, some stack =>
      if frame.callable then some { p with created := some (frame :: stack) } else none
  | .running, .goOn pad, some (.generated _ :: stack) =>
      some { p with created := some (.generated pad :: stack) }
  | .running, .return_, some [.doMain] => some { p with created := some [], status := .exited 0 }
  | .running, .return_, some (_ :: stack) => some { p with created := some stack }
  | .landed e, .rescue, some (.generated (some clauses) :: stack) =>
      if clauses e then
        some { p with
          created := some (.generated none :: stack)
          status := .running }
      else none
  | _, _, _ => none

def process (raiseException : RaiseException) : Machine Process Action where
  init p := p = ⟨[.realMain], none, .running⟩
  next p a :=
    match raising p a with
    | some (e, stack) => some (raiseOn raiseException p e stack)
    | none => proceed p a

/-- Control gets to `pup_handle_uncaught_exception` with `e`. -/
def ReachesHandler (raiseException : RaiseException) (p : Process) (e : Exc) : Prop :=
  ∃ actions q, (process raiseException).run p actions = some q ∧ q.status = .reported e

/-- No function of the program that is being executed is in a call with a landing pad. -/
def Uncaught (stack : List Frame) : Prop := ∀ pad, Frame.generated pad ∈ stack → pad = none

/-! ### The frame of `main` is never found -/

/-- The landing pad of `main` belongs to the other thread. -/
structure Apart (p : Process) : Prop where
  created : ∀ stack, p.created = some stack → Frame.realMain ∉ stack
  status : ∀ e, p.status ≠ .reported e

variable {raiseException : RaiseException}

theorem raising_apart {p : Process} (h : Apart p) {a : Action} {e : Exc} {stack : List Frame}
    (hr : raising p a = some (e, stack)) : Frame.realMain ∉ stack := by
  unfold raising at hr
  split at hr
  · next _ stack' _ _ hcreated =>
      obtain ⟨-, rfl⟩ := Prod.mk.inj (Option.some.inj hr)
      exact h.created _ hcreated
  · next clauses stack' _ _ hcreated =>
      split at hr
      · cases hr
      · obtain ⟨-, rfl⟩ := Prod.mk.inj (Option.some.inj hr)
        have := h.created _ hcreated
        simpa using this
  · cases hr

theorem raiseOn_apart (hu : SearchesOwnFrames raiseException) {p : Process} {e : Exc}
    {stack : List Frame} (h : Apart p) (hstack : Frame.realMain ∉ stack) :
    Apart (raiseOn raiseException p e stack) := by
  unfold raiseOn
  split
  · exact ⟨h.created, fun _ => nofun⟩
  · next t depth hfound =>
      obtain ⟨rfl, stack', frame, hstack', hframe, -⟩ := hu.own _ _ _ _ hfound
      obtain rfl : stack = stack' := Option.some.inj hstack'
      rw [if_neg (by decide), resume, hframe]
      have hne : frame ≠ .realMain := fun heq => hstack (heq ▸ List.mem_of_getElem? hframe)
      have hcut : Apart { p with
          created := some (frame :: stack.drop (depth + 1))
          status := .landed e } := by
        refine ⟨fun _ heq => ?_, fun _ => nofun⟩
        rw [← Option.some.inj heq, List.mem_cons, not_or]
        exact ⟨hne.symm, fun hmem => hstack (List.mem_of_mem_drop hmem)⟩
      cases frame with
      | realMain => exact absurd rfl hne
      | launchMain => exact hcut
      | doMain => exact hcut
      | generated pad => exact hcut
      | runtime => exact hcut

theorem proceed_apart {p p' : Process} (h : Apart p) {a : Action}
    (hp : proceed p a = some p') : Apart p' := by
  unfold proceed at hp
  split at hp
  · obtain rfl := Option.some.inj hp
    exact ⟨fun _ heq => by simp [← Option.some.inj heq], h.status⟩
  · obtain rfl := Option.some.inj hp
    exact ⟨h.created, fun _ => nofun⟩
  · obtain rfl := Option.some.inj hp
    exact ⟨h.created, fun _ => nofun⟩
  · next frame stack _ _ hcreated =>
      split at hp
      · next hcall =>
          obtain rfl := Option.some.inj hp
          refine ⟨fun _ heq => ?_, h.status⟩
          rw [← Option.some.inj heq, List.mem_cons, not_or]
          exact ⟨fun hmain => by simp [← hmain, Frame.callable] at hcall, h.created _ hcreated⟩
      · cases hp
  · next pad pad' stack _ _ hcreated =>
      obtain rfl := Option.some.inj hp
      have := h.created _ hcreated
      exact ⟨fun _ heq => by simpa [← Option.some.inj heq] using this, h.status⟩
  · obtain rfl := Option.some.inj hp
    exact ⟨fun _ heq => by simp [← Option.some.inj heq], fun _ => nofun⟩
  · next frame stack _ _ _ hcreated =>
      obtain rfl := Option.some.inj hp
      have := h.created _ hcreated
      exact ⟨fun _ heq => Option.some.inj heq ▸ (not_or.mp (mt List.mem_cons.mpr this)).2,
        h.status⟩
  · next clauses stack _ _ hcreated =>
      split at hp
      · obtain rfl := Option.some.inj hp
        have := h.created _ hcreated
        exact ⟨fun _ heq => by simpa [← Option.some.inj heq] using this, fun _ => nofun⟩
      · cases hp
  · cases hp

theorem next_apart (hu : SearchesOwnFrames raiseException) {p p' : Process} (h : Apart p)
    {a : Action} (hp : (process raiseException).next p a = some p') : Apart p' := by
  simp only [process] at hp
  split at hp
  · next hr =>
      obtain rfl := Option.some.inj hp
      exact raiseOn_apart hu h (raising_apart h hr)
  · exact proceed_apart h hp

theorem run_apart (hu : SearchesOwnFrames raiseException) {p p' : Process} (h : Apart p)
    {actions : List Action} (hp : (process raiseException).run p actions = some p') :
    Apart p' := by
  induction actions generalizing p with
  | nil => exact Option.some.inj hp ▸ h
  | cons a actions ih =>
      obtain ⟨q, hq, hrest⟩ := Option.bind_eq_some_iff.mp hp
      exact ih (next_apart hu h hq) hrest

theorem apart_of_reachable (hu : SearchesOwnFrames raiseException) {p : Process}
    (h : Reachable (process raiseException) p) : Apart p := by
  refine h.invariant ?_ fun _ _ _ hpre => next_apart hu hpre
  rintro _ rfl
  exact ⟨nofun, fun _ => nofun⟩

/-! ### What happens instead -/

theorem handles_of_uncaught {stack : List Frame} (hmain : Frame.realMain ∉ stack)
    (h : Uncaught stack) : ∀ frame ∈ stack, ¬ frame.handles := by
  intro frame hframe
  cases frame with
  | realMain => exact absurd hframe hmain
  | launchMain => exact Bool.false_ne_true
  | doMain => exact Bool.false_ne_true
  | generated pad =>
      rw [h pad hframe]
      exact Bool.false_ne_true
  | runtime => exact Bool.false_ne_true

/-- **An exception that nothing rescues is not reported.**  In every run, an exception that is
raised where no function of the program is in a call with a landing pad aborts the process,
and `pup_handle_uncaught_exception` is not reached. -/
theorem uncaught_aborts (hu : SearchesOwnFrames raiseException) {p p' : Process}
    (hp : Reachable (process raiseException) p) {a : Action} {e : Exc} {stack : List Frame}
    (hr : raising p a = some (e, stack)) (huncaught : Uncaught stack)
    (hnext : (process raiseException).next p a = some p') :
    p'.status = .aborted ∧ ¬ ReachesHandler raiseException p' e := by
  have hapart := apart_of_reachable hu hp
  have hend := hu.endOfStack [p.main, stack] 1 stack rfl
    (handles_of_uncaught (raising_apart hapart hr) huncaught)
  constructor
  · simp only [process, hr, raiseOn, hend] at hnext
    exact Option.some.inj hnext ▸ rfl
  · rintro ⟨actions, q, hrun, hstatus⟩
    exact (run_apart hu (next_apart hu hapart hnext) hrun).status e hstatus

/-- The innermost frame of the raising thread that handles. -/
def searchOwn : RaiseException := fun threads thread =>
  (threads[thread]?.bind (·.findIdx? Frame.handles)).map (thread, ·)

theorem searchOwn_own : SearchesOwnFrames searchOwn where
  own := by
    intro threads thread t depth h
    obtain ⟨d, hd, heq⟩ := Option.map_eq_some_iff.mp h
    obtain ⟨rfl, rfl⟩ := Prod.mk.inj heq
    obtain ⟨stack, hstack, hfind⟩ := Option.bind_eq_some_iff.mp hd
    obtain ⟨hlt, hframe, -⟩ := List.findIdx?_eq_some_iff_getElem.mp hfind
    exact ⟨rfl, stack, _, hstack, List.getElem?_eq_getElem hlt, hframe⟩
  endOfStack := by
    intro threads thread stack hstack hnone
    rw [searchOwn, hstack, Option.bind_some, List.findIdx?_eq_none_iff.mpr]
    · rfl
    · intro frame hframe
      exact Bool.eq_false_iff.mpr (hnone frame hframe)

/-- `pup_main` calls a method of the runtime, which raises. -/
theorem uncaught_aborts_raise :
    ∃ p p', Reachable (process searchOwn) p ∧
      (process searchOwn).next p (.raise 7) = some p' ∧ p'.status = .aborted := by
  have hp : Reachable (process searchOwn)
      ⟨[.launchMain, .realMain], some [.runtime, .generated none, .doMain], .running⟩ :=
    reachable_of_run rfl [.launch, .call .runtime] rfl
  refine ⟨_, _, hp, rfl, (uncaught_aborts searchOwn_own hp (a := .raise 7) rfl ?_ rfl).1⟩
  intro pad hpad
  simpa using hpad

/-- **The report of `main` is not reached.** -/
theorem uncaught_unreported :
    ¬ ∀ (raiseException : RaiseException) (p p' : Process) (a : Action) (e : Exc)
      (stack : List Frame), SearchesOwnFrames raiseException →
      Reachable (process raiseException) p → raising p a = some (e, stack) → Uncaught stack →
      (process raiseException).next p a = some p' → ReachesHandler raiseException p' e := by
  intro h
  have hp : Reachable (process searchOwn)
      ⟨[.launchMain, .realMain], some [.runtime, .generated none, .doMain], .running⟩ :=
    reachable_of_run rfl [.launch, .call .runtime] rfl
  obtain ⟨actions, q, hrun, hstatus⟩ := h searchOwn _ _ (.raise 7) 7 _ searchOwn_own hp rfl
    (fun pad hpad => by simpa using hpad) rfl
  have hapart := next_apart searchOwn_own (apart_of_reachable searchOwn_own hp) (a := .raise 7) rfl
  exact (run_apart searchOwn_own hapart hrun).status 7 hstatus

end Pup.Raise
