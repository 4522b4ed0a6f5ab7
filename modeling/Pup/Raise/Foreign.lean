/-
The personality routine and exceptions of other languages.

A landing pad that the generator makes for a `begin` reads what it is entered with as a
`PupUnwindException`, so it must not be entered with the exception of another runtime.  The
routine does not look at the action records of a call site for such an exception, but in
the cleanup phase it resumes at the landing pad all the same.

Nothing is assumed here of the area, and the call sites are those that can be read.
-/
import Pup.Raise.Lsda

namespace Pup.Raise

open Bytes

/-! ### What is in the table -/

/-- The call sites that can be read from `p` on. -/
def readSites (readers : Nat) (mem : Bytes.Memory 64) (encoding : BitVec 8) (tableEnd : Ptr) :
    Nat → Ptr → List UnwindCallsite
  | 0, _ => []
  | fuel + 1, p =>
      if p < tableEnd then
        match unwindCallsiteRead readers mem p encoding with
        | .ok (callsite, p) => callsite :: readSites readers mem encoding tableEnd fuel p
        | .error _ => []
      else []

/-- The filters of the chain of action records at `p`. -/
def readFilters (readers : Nat) (mem : Bytes.Memory 64) :
    Nat → Ptr → Except Fault (List (BitVec 64))
  | 0, _ => .error .outOfFuel
  | fuel + 1, p => do
      let (typeOffset, p) ← readSLEB128 readers mem p
      let (actionOffset, _) ← readSLEB128 readers mem p
      if actionOffset = 0 then return [typeOffset]
      else return typeOffset :: (← readFilters readers mem fuel (p + actionOffset))

def Header.sites (h : Header) (fuel : Nat) (mem : Bytes.Memory 64) : List UnwindCallsite :=
  readSites fuel mem h.callSiteEncoding h.callSiteTableEnd fuel h.callSiteTableStart

/-- The call site has action records, and they all catch. -/
def Rescues (fuel : Nat) (mem : Bytes.Memory 64) (h : Header) (callsite : UnwindCallsite) : Prop :=
  callsite.action ≠ 0 ∧ ∃ filters,
    readFilters fuel mem fuel (h.callSiteTableEnd + callsite.action - 1) = .ok filters ∧
      ∀ filter ∈ filters, BitVec.slt 0 filter

/-- The call site has a landing pad and the pc. -/
def entered (context : Context) (callsite : UnwindCallsite) : Bool :=
  callsite.landingPad ≠ 0 ∧ unwindCallsiteContains callsite (pcOffset context)

/-- A frame is never resumed at the landing pad of a call site that rescues. -/
def AvoidsRescue (fuel : Nat) (mem : Bytes.Memory 64) (version : Int) (r : Request) : Prop :=
  ∀ h context, readHeader fuel mem r.context.languageSpecificData = .ok h →
    pupEhPersonality fuel mem version r = .ok (.installContext, context) →
    ∀ callsite ∈ h.sites fuel mem, Rescues fuel mem h callsite →
      context.ip ≠ r.context.regionStart + callsite.landingPad

/-! ### What is resumed -/

variable {fuel : Nat} {mem : Bytes.Memory 64} {r : Request}

/-- Where a frame is resumed for an exception of another language. -/
def resumed (r : Request) (callsite : UnwindCallsite) : Context :=
  { r.context with
    gr0 := r.ueHeader
    gr1 := 0
    ip := r.context.regionStart + callsite.landingPad }

theorem handleCallsite_foreign (hforeign : isForeignUnwindclass r.unwindclass)
    (tableEnd : Ptr) (callsite : UnwindCallsite) :
    handleCallsite fuel mem r tableEnd callsite =
      .ok (if entered r.context callsite ∧ r.actions &&& UA_SEARCH_PHASE = 0 then
        some (.installContext, resumed r callsite) else none) := by
  have hentry : actionTableEntry r.unwindclass tableEnd callsite = 0 :=
    if_neg fun h => h.1 hforeign
  by_cases hpad : callsite.landingPad = 0
  · rw [handleCallsite, if_pos hpad, if_neg fun h => (of_decide_eq_true h.1).1 hpad]
  by_cases hcontains : unwindCallsiteContains callsite (pcOffset r.context)
  · have hentered : entered r.context callsite := decide_eq_true ⟨hpad, hcontains⟩
    simp only [handleCallsite, if_neg hpad, if_pos hcontains, hentry, exceptionMatched, bind,
      Except.bind, pure, Except.pure, ne_eq, not_true_eq_false, if_false]
    by_cases hphase : r.actions &&& UA_SEARCH_PHASE = 0
    · rw [if_pos hphase, if_pos ⟨hentered, hphase⟩]
      rfl
    · have hnot : ¬ (entered r.context callsite ∧ r.actions &&& UA_SEARCH_PHASE = 0) :=
        fun h => hphase h.2
      rw [if_neg hphase, if_neg hnot]
      rfl
  · rw [handleCallsite, if_neg hpad, if_neg hcontains,
      if_neg fun h => hcontains (of_decide_eq_true h.1).2]

/-- **The first call site with a landing pad and the pc is resumed at**, in the cleanup
phase. -/
theorem callsiteLoop_foreign (hforeign : isForeignUnwindclass r.unwindclass)
    {encoding : BitVec 8} {tableEnd : Ptr} {rounds : Nat} {p : Ptr} (context : Context) :
    callsiteLoop fuel mem r encoding tableEnd rounds p = .ok (.installContext, context) ↔
      r.actions &&& UA_SEARCH_PHASE = 0 ∧
        ∃ callsite, (readSites fuel mem encoding tableEnd rounds p).find? (entered r.context) =
          some callsite ∧ context = resumed r callsite := by
  induction rounds generalizing p with
  | zero => simp [callsiteLoop, readSites]
  | succ rounds ih =>
      by_cases hmore : p < tableEnd
      · rw [callsiteLoop, readSites, if_pos hmore, if_pos hmore]
        cases hread : unwindCallsiteRead fuel mem p encoding with
        | error e => simp [bind, Except.bind]
        | ok next =>
            obtain ⟨callsite, q⟩ := next
            simp only [bind, Except.bind, handleCallsite_foreign hforeign, List.find?_cons]
            by_cases hphase : r.actions &&& UA_SEARCH_PHASE = 0
            · by_cases hentered : entered r.context callsite
              · rw [if_pos ⟨hentered, hphase⟩, hentered]
                simp [hphase, pure, Except.pure, eq_comm]
              · rw [if_neg fun h => hentered h.1, Bool.eq_false_iff.mpr hentered]
                exact ih
            · rw [if_neg fun h => hphase h.2]
              refine ih.trans ⟨fun h => absurd h.1 hphase, fun h => absurd h.1 hphase⟩
      · rw [callsiteLoop, readSites, if_neg hmore, if_neg hmore]
        simp [pure, Except.pure]

/-! ### When a rescue is avoided -/

/-- A request that the routine takes no part in, or in which no frame is resumed. -/
def Passed (version : Int) (r : Request) : Prop :=
  r.actions &&& UA_SEARCH_PHASE ≠ 0 ∨ version ≠ 1 ∨ r.context.languageSpecificData = 0

theorem pupEhPersonality_foreign (hforeign : isForeignUnwindclass r.unwindclass) {h : Header}
    (hh : readHeader fuel mem r.context.languageSpecificData = .ok h) (version : Int)
    (context : Context) :
    pupEhPersonality fuel mem version r = .ok (.installContext, context) ↔
      ¬ Passed version r ∧ ∃ callsite,
        (h.sites fuel mem).find? (entered r.context) = some callsite ∧
          context = resumed r callsite := by
  by_cases hversion : version ≠ 1
  · rw [pupEhPersonality, if_pos hversion]
    simp [Passed, hversion]
  by_cases hlsda : r.context.languageSpecificData = 0
  · rw [pupEhPersonality, if_neg hversion, if_pos hlsda]
    simp [Passed, hlsda]
  · have hpassed : ¬ Passed version r ↔ r.actions &&& UA_SEARCH_PHASE = 0 := by
      rw [Passed, or_iff_left (not_or.mpr ⟨hversion, hlsda⟩), not_ne_iff]
    rw [pupEhPersonality, if_neg hversion, if_neg hlsda, handleLsda, hh, hpassed]
    exact callsiteLoop_foreign hforeign context

/-- **When a foreign exception stays out of the rescues.**  For every memory, frame, phase and
foreign class, the personality resumes at no landing pad of a call site that rescues if and
only if it resumes nowhere, or the first call site with a landing pad and the pc does not have
the landing pad of one that rescues. -/
theorem avoidsRescue_iff (hforeign : isForeignUnwindclass r.unwindclass) (version : Int) :
    AvoidsRescue fuel mem version r ↔
      Passed version r ∨
        ∀ h, readHeader fuel mem r.context.languageSpecificData = .ok h →
          ∀ callsite, (h.sites fuel mem).find? (entered r.context) = some callsite →
            ∀ callsite' ∈ h.sites fuel mem, Rescues fuel mem h callsite' →
              callsite.landingPad ≠ callsite'.landingPad := by
  constructor
  · intro havoids
    refine or_iff_not_imp_left.mpr fun hpassed h hh callsite hfind callsite' hmem hrescues => ?_
    have hrun := (pupEhPersonality_foreign hforeign hh version (resumed r callsite)).mpr
      ⟨hpassed, callsite, hfind, rfl⟩
    intro hsame
    exact havoids h _ hh hrun callsite' hmem hrescues (by rw [← hsame]; rfl)
  · intro hcond h context hh hrun callsite' hmem hrescues hip
    obtain ⟨hpassed, callsite, hfind, rfl⟩ :=
      (pupEhPersonality_foreign hforeign hh version context).mp hrun
    refine (hcond.resolve_left hpassed) h hh callsite hfind callsite' hmem hrescues ?_
    exact (BitVec.add_right_inj _).mp hip

/-- The frame of `rescueRequest`, unwound in the cleanup phase by an exception of class 0. -/
def foreignRequest (ip : BitVec 64) : Request where
  actions := 2
  unwindclass := 0
  ueHeader := 0x5000
  context := ⟨ip, 0x400000, 0x1000, 0, 0⟩

/-- A pc outside of the call site. -/
theorem avoidsRescue_iff_outside :
    AvoidsRescue 8 (only 0x1000 rescueLsda.bytes) 1 (foreignRequest 0x400011) := by
  refine (avoidsRescue_iff (by decide) 1).mpr (.inr fun h hh callsite hfind => ?_)
  obtain rfl : (⟨DW_EH_PE_udata4, 0x1004, 0x1011⟩ : Header) = h :=
    Except.ok.inj (Eq.trans (by decide) hh)
  have hnone : (Header.sites ⟨DW_EH_PE_udata4, 0x1004, 0x1011⟩ 8
      (only 0x1000 rescueLsda.bytes)).find? (entered (foreignRequest 0x400011).context) =
      none := by decide
  exact absurd (hnone.symm.trans hfind) nofun

/-- **An exception of class 0 is given to a rescue.** -/
theorem foreign_rescued :
    ¬ ∀ (fuel : Nat) (mem : Bytes.Memory 64) (r : Request), isForeignUnwindclass r.unwindclass →
      AvoidsRescue fuel mem 1 r := by
  intro h
  have hrescues : Rescues 8 (only 0x1000 rescueLsda.bytes)
      ⟨DW_EH_PE_udata4, 0x1004, 0x1011⟩ ⟨0, 16, 32, 1⟩ := by
    refine ⟨by decide, [1], by decide, fun filter hfilter => ?_⟩
    rw [List.mem_singleton.mp hfilter]
    decide
  exact h 8 (only 0x1000 rescueLsda.bytes) (foreignRequest 0x400010) (by decide)
    ⟨DW_EH_PE_udata4, 0x1004, 0x1011⟩ ⟨0x400020, 0x400000, 0x1000, 0x5000, 0⟩ (by decide)
    (by decide) ⟨0, 16, 32, 1⟩ (by decide) hrescues rfl

end Pup.Raise
