import RobotPws.Lib.CArray
import RobotPws.Lib.Runs
import RobotPws.Sonar.Model

/-!
# The sonar flag and the driver

`sonarStart` and `sonarStop` statement by statement on the wifly thread, without a lock, among the
DMA and ADC interrupts. The flag is set by the commands only, the driver's state by the commands
and by the error interrupt. This module says in which runs the two agree.
-/

namespace RobotPws.Sonar

open RobotPws.Lib RobotPws.Hal RobotPws.Main

/-- The statement of `sonarStart` or `sonarStop` that comes next. -/
inductive Pc where
  /-- in neither -/
  | idle
  /-- the call of `adcStartConversionI`, with its first stores -/
  | startDepth
  | startGrpp
  | startState
  /-- `adc_lld_start_conversion` -/
  | startLld
  /-- `adcp->state != ADC_READY` -/
  | stopTest
  /-- `adc_lld_stop_conversion` -/
  | stopLld
  | stopGrpp
  | stopState
  deriving DecidableEq, Repr

structure State where
  pc : Pc
  adcp : AdcDriver Vars
  vars : Vars

inductive Event where
  /-- the wifly thread; between two commands it calls `op` next -/
  | thread (op : Op)
  /-- the interrupt of the DMA stream, with the contents of `sampels` -/
  | dma (flags : DmaFlags) (sampels : CArray UInt16 (adcChannels * adcBufferDepth))
  /-- the interrupt of the ADC -/
  | adc (ovr : Bool) (size : Nat)

namespace State

/-- After `sonarInit`. -/
def init : State := ⟨.idle, sonarInit, .init⟩

def threadStep (s : State) (op : Op) : Option State :=
  match s.pc with
  | .idle =>
    match op with
    | .sonarStart => some { s with pc := .startDepth, vars := { s.vars with sonarEn := true } }
    | .sonarStop => some { s with pc := .stopTest, vars := { s.vars with sonarEn := false } }
    | _ => some s
  | .startDepth =>
    some { s with pc := .startGrpp, adcp := { s.adcp with depth := adcBufferDepth } }
  | .startGrpp => some { s with pc := .startState, adcp := { s.adcp with grpp := some adcgrpcfg2 } }
  | .startState => some { s with pc := .startLld, adcp := { s.adcp with state := .active } }
  | .startLld => s.adcp.lldStartConversion.map fun adcp => { s with pc := .idle, adcp }
  | .stopTest => if s.adcp.state ≠ .ready then some { s with pc := .stopLld }
    else some { s with pc := .idle }
  | .stopLld => some { s with pc := .stopGrpp }
  | .stopGrpp => some { s with pc := .stopState, adcp := { s.adcp with grpp := none } }
  | .stopState => some { s with pc := .idle, adcp := { s.adcp with state := .ready } }

/-- A step; `none` where a null group is followed. -/
def step (s : State) : Event → Option State
  | .thread op => s.threadStep op
  | .dma flags sampels =>
    (s.adcp.serveRxInterrupt flags sampels.cells s.vars).map fun r =>
      { s with adcp := r.1, vars := r.2 }
  | .adc ovr size =>
    (s.adcp.adcIrqHandler ovr size s.vars).map fun r => { s with adcp := r.1, vars := r.2 }

theorem exec_sonarStart (adcp : AdcDriver Vars) (vars : Vars) (op : Op) :
    exec step (fun _ _ => True) ⟨.idle, adcp, vars⟩
      (.thread .sonarStart :: List.replicate 4 (.thread op)) =
      (sonarStart adcp vars).map fun r => ⟨.idle, r.1, r.2⟩ := rfl

theorem exec_sonarStop (adcp : AdcDriver Vars) (vars : Vars) :
    exec step (fun _ _ => True) ⟨.idle, adcp, vars⟩
      (.thread .sonarStop :: List.replicate 4 (.thread .motorActive)) =
      some ⟨.idle, (sonarStop adcp vars).1, (sonarStop adcp vars).2⟩ := by
  obtain ⟨state, depth, grpp⟩ := adcp
  cases state <;> rfl

/-- Outside the two functions the flag says whether a conversion is active. -/
def Truthful (s : State) : Prop :=
  s.pc = .idle →
    (s.vars.sonarActive = true ↔ s.adcp.state = .active ∧ s.adcp.grpp.isSome = true)

/-- `adcStartConversionI` is called with the driver in a state it accepts. -/
def StartsReady (s : State) : Event → Prop
  | .thread _ => s.pc = .startDepth → s.adcp.Startable
  | _ => True

/-- The flag tells the truth, and no conversion is started on a busy driver, all along this run. -/
def Tells (s : State) : List Event → Prop
  | [] => s.Truthful
  | e :: es => s.Truthful ∧ s.StartsReady e ∧ ∃ t, s.step e = some t ∧ t.Tells es

/-- An error that comes here is undone by the statements that follow. -/
def Recovers (s : State) : Prop :=
  s.pc = .startDepth ∨ s.pc = .stopTest ∨ s.pc = .stopLld ∨ s.pc = .stopGrpp ∨ s.pc = .stopState

/-- No conversion is started on an active driver, and no error interrupt is served with the
conversion going on, or by the DMA without one. -/
def Harmless (s : State) : Event → Prop
  | .thread _ => s.pc = .startDepth → s.adcp.state ≠ .active
  | .dma flags _ => flags.error = true → s.adcp.grpp.isSome = true ∧ s.Recovers
  | .adc ovr size => ovr = true ∧ 0 < size → s.adcp.grpp.isSome = true → s.Recovers

/-- All steps of this run are harmless. -/
def Meets (s : State) : List Event → Prop
  | [] => True
  | e :: es => s.Harmless e ∧ ∀ t, s.step e = some t → t.Meets es

end State

/-- The thread leaves the function it is in. -/
def leave : List Event := List.replicate 5 (.thread .motorActive)

/-- A conversion is going on. -/
def Running (adcp : AdcDriver Vars) : Prop :=
  adcp.state = .active ∧ adcp.grpp = some adcgrpcfg2 ∧ adcp.depth = adcBufferDepth

def Stopped (adcp : AdcDriver Vars) : Prop := adcp.state = .ready ∧ adcp.grpp = none

namespace State

/-- The flag and the driver at each statement of a run that meets the condition. -/
def Inv (s : State) : Prop :=
  match s.pc with
  | .idle => (s.vars.sonarEn = true ∧ Running s.adcp) ∨ (s.vars.sonarEn = false ∧ Stopped s.adcp)
  | .startDepth => s.vars.sonarEn = true ∧ (Running s.adcp ∨ Stopped s.adcp)
  | .startGrpp =>
    s.vars.sonarEn = true ∧ Stopped s.adcp ∧ s.adcp.depth = adcBufferDepth
  | .startState =>
    s.vars.sonarEn = true ∧ s.adcp.state = .ready ∧ s.adcp.grpp = some adcgrpcfg2 ∧
      s.adcp.depth = adcBufferDepth
  | .startLld => s.vars.sonarEn = true ∧ Running s.adcp
  | .stopTest | .stopLld | .stopGrpp =>
    s.vars.sonarEn = false ∧ (Running s.adcp ∨ Stopped s.adcp)
  | .stopState => s.vars.sonarEn = false ∧ s.adcp.grpp = none

end State

/-- The group of the driver, if it has one, is that of the sonar. -/
def Grouped (adcp : AdcDriver Vars) : Prop :=
  adcp.grpp = none ∨ (adcp.grpp = some adcgrpcfg2 ∧ adcp.depth = adcBufferDepth)

theorem Running.grouped {adcp : AdcDriver Vars} (h : Running adcp) : Grouped adcp := .inr h.2

theorem Stopped.grouped {adcp : AdcDriver Vars} (h : Stopped adcp) : Grouped adcp := .inl h.2

theorem isrHalfCode_some {adcp : AdcDriver Vars} (hg : adcp.grpp = some adcgrpcfg2)
    (hd : adcp.depth = adcBufferDepth) (b : CArray UInt16 (adcChannels * adcBufferDepth))
    (v : Vars) : ∃ v', adcp.isrHalfCode b.cells v = some (adcp, v') ∧ v'.sonarEn = v.sonarEn := by
  obtain ⟨v', hv, hen⟩ := @adccallback_some b.cells 4 (by rw [b.size]; decide) (by decide) v
  refine ⟨v', ?_, hen⟩
  unfold AdcDriver.isrHalfCode
  rw [hg, hd]
  show (adccallback b.cells 4 v).map _ = _
  rw [hv]
  rfl

theorem isrFullCode_some {adcp : AdcDriver Vars} (hg : adcp.grpp = some adcgrpcfg2)
    (hd : adcp.depth = adcBufferDepth) (b : CArray UInt16 (adcChannels * adcBufferDepth))
    (v : Vars) : ∃ v', adcp.isrFullCode b.cells v = some (adcp, v') ∧ v'.sonarEn = v.sonarEn := by
  obtain ⟨v', hv, hen⟩ := @adccallback_some (b.cells.drop 4) 4
    (by rw [List.length_drop, b.size]; decide) (by decide) v
  refine ⟨v', ?_, hen⟩
  unfold AdcDriver.isrFullCode
  rw [hg]
  show (adcp.callSecondHalf adcgrpcfg2 b.cells v).map _ = _
  unfold AdcDriver.callSecondHalf
  rw [hd]
  show (adccallback (b.cells.drop 4) 4 v).map _ = _
  rw [hv]
  rfl

/-- Without an error the interrupt of the DMA stream leaves the driver and the flag alone. -/
theorem serveRxInterrupt_data {adcp : AdcDriver Vars} (hg : Grouped adcp) {flags : DmaFlags}
    (hf : flags.error = false) (b : CArray UInt16 (adcChannels * adcBufferDepth)) (v : Vars) :
    ∃ v', adcp.serveRxInterrupt flags b.cells v = some (adcp, v') ∧ v'.sonarEn = v.sonarEn := by
  unfold AdcDriver.serveRxInterrupt
  rw [hf, if_neg Bool.false_ne_true]
  obtain hg | ⟨hg, hd⟩ := hg
  · rw [hg]
    exact ⟨v, rfl, rfl⟩
  obtain ⟨v1, hv1, hen1⟩ : ∃ v',
      (if flags.htif then adcp.isrHalfCode b.cells v else some (adcp, v)) = some (adcp, v') ∧
        v'.sonarEn = v.sonarEn := by
    cases flags.htif with
    | true => exact isrHalfCode_some hg hd b v
    | false => exact ⟨v, rfl, rfl⟩
  obtain ⟨v2, hv2, hen2⟩ : ∃ v',
      (if flags.tcif then adcp.isrFullCode b.cells v1 else some (adcp, v1)) = some (adcp, v') ∧
        v'.sonarEn = v1.sonarEn := by
    cases flags.tcif with
    | true => exact isrFullCode_some hg hd b v1
    | false => exact ⟨v1, rfl, rfl⟩
  refine ⟨v2, ?_, hen2.trans hen1⟩
  rw [hg]
  dsimp only
  rw [hv1, Option.bind_some]
  exact hv2

theorem isrErrorCode_some {adcp : AdcDriver Vars} (hg : adcp.grpp = some adcgrpcfg2)
    (err : AdcError) (v : Vars) : adcp.isrErrorCode err v =
      some ({ adcp with state := .ready, grpp := none }, { v with string := itoa err.code }) := by
  unfold AdcDriver.isrErrorCode
  rw [hg]
  rfl

namespace State

theorem Inv.congr {s t : State} (h : s.Inv) (hpc : t.pc = s.pc) (hadcp : t.adcp = s.adcp)
    (hen : t.vars.sonarEn = s.vars.sonarEn) : t.Inv := by
  unfold Inv at h ⊢
  rw [hpc, hadcp, hen]
  exact h

theorem Inv.grouped {s : State} (h : s.Inv) : Grouped s.adcp := by
  obtain ⟨pc, adcp, vars⟩ := s
  cases pc with
  | idle => exact h.elim (fun h => h.2.grouped) fun h => h.2.grouped
  | startDepth => exact h.2.elim Running.grouped Stopped.grouped
  | startGrpp => exact h.2.1.grouped
  | startState => exact .inr h.2.2
  | startLld => exact h.2.grouped
  | stopTest => exact h.2.elim Running.grouped Stopped.grouped
  | stopLld => exact h.2.elim Running.grouped Stopped.grouped
  | stopGrpp => exact h.2.elim Running.grouped Stopped.grouped
  | stopState => exact .inl h.2

theorem Inv.group {s : State} (h : s.Inv) (hsome : s.adcp.grpp.isSome = true) :
    s.adcp.grpp = some adcgrpcfg2 := by
  obtain hg | ⟨hg, -⟩ := h.grouped
  · rw [hg] at hsome
    cases hsome
  · exact hg

/-- The driver after an error, where the statements that follow reset or start it. -/
theorem Inv.error {s t : State} (h : s.Inv) (hr : s.Recovers) (hpc : t.pc = s.pc)
    (hstate : t.adcp.state = .ready) (hg : t.adcp.grpp = none)
    (hen : t.vars.sonarEn = s.vars.sonarEn) : t.Inv := by
  have hstop : Stopped t.adcp := ⟨hstate, hg⟩
  unfold Inv at h ⊢
  rw [hpc, hen]
  obtain hs | hs | hs | hs | hs := hr <;> rw [hs] at h ⊢
  · exact ⟨h.1, .inr hstop⟩
  · exact ⟨h.1, .inr hstop⟩
  · exact ⟨h.1, .inr hstop⟩
  · exact ⟨h.1, .inr hstop⟩
  · exact ⟨h.1, hg⟩

theorem Inv.thread {s : State} (h : s.Inv) {op : Op} (hc : s.Harmless (.thread op)) :
    ∃ t, s.step (.thread op) = some t ∧ t.Inv := by
  obtain ⟨pc, adcp, vars⟩ := s
  cases pc with
  | idle =>
    have hrun : Running adcp ∨ Stopped adcp := h.imp And.right And.right
    cases op with
    | sonarStart => exact ⟨_, rfl, rfl, hrun⟩
    | sonarStop => exact ⟨_, rfl, rfl, hrun⟩
    | _ => exact ⟨_, rfl, h⟩
  | startDepth =>
    obtain hrun | hstop := h.2
    · exact absurd hrun.1 (hc rfl)
    · exact ⟨_, rfl, h.1, hstop, rfl⟩
  | startGrpp => exact ⟨_, rfl, h.1, h.2.1.1, rfl, h.2.2⟩
  | startState => exact ⟨_, rfl, h.1, rfl, h.2.2⟩
  | startLld =>
    refine ⟨⟨.idle, adcp, vars⟩, ?_, .inl h⟩
    show (AdcDriver.lldStartConversion adcp).map _ = _
    unfold AdcDriver.lldStartConversion
    rw [h.2.2.1]
    rfl
  | stopTest =>
    show ∃ t : State, (if adcp.state ≠ .ready then some _ else some _) = some t ∧ t.Inv
    split
    · exact ⟨_, rfl, h⟩
    · next hready =>
      refine ⟨_, rfl, .inr ⟨h.1, h.2.resolve_left fun hrun => hready ?_⟩⟩
      rw [hrun.1]
      decide
  | stopLld => exact ⟨_, rfl, h⟩
  | stopGrpp => exact ⟨_, rfl, h.1, rfl⟩
  | stopState => exact ⟨_, rfl, .inr ⟨h.1, rfl, h.2⟩⟩

theorem Inv.step {s : State} (h : s.Inv) {e : Event} (hc : s.Harmless e) :
    ∃ t, s.step e = some t ∧ t.Inv := by
  cases e with
  | thread op => exact h.thread hc
  | dma flags b =>
    show ∃ t : State, Option.map _ _ = some t ∧ t.Inv
    cases hf : flags.error with
    | false =>
      obtain ⟨v, hv, hen⟩ := serveRxInterrupt_data h.grouped hf b s.vars
      rw [hv]
      exact ⟨_, rfl, h.congr rfl rfl hen⟩
    | true =>
      obtain ⟨hsome, hr⟩ := hc hf
      unfold AdcDriver.serveRxInterrupt
      rw [if_pos hf, isrErrorCode_some (h.group hsome)]
      exact ⟨_, rfl, h.error hr rfl rfl rfl rfl⟩
  | adc ovr size =>
    show ∃ t : State, Option.map _ _ = some t ∧ t.Inv
    unfold AdcDriver.adcIrqHandler
    split
    · next hovr =>
      cases hg : s.adcp.grpp with
      | none => exact ⟨_, rfl, h.congr rfl rfl rfl⟩
      | some g =>
        have hsome : s.adcp.grpp.isSome = true := by rw [hg]; rfl
        dsimp only
        rw [isrErrorCode_some (h.group hsome)]
        exact ⟨_, rfl, h.error (hc hovr hsome) rfl rfl rfl rfl⟩
    · exact ⟨_, rfl, h.congr rfl rfl rfl⟩

theorem Inv.truthful {s : State} (h : s.Inv) : s.Truthful := by
  intro hpc
  unfold Inv at h
  rw [hpc] at h
  obtain ⟨hen, hrun⟩ | ⟨hen, hstop⟩ := h
  · exact ⟨fun _ => ⟨hrun.1, by rw [hrun.2.1]; rfl⟩, fun _ => hen⟩
  · refine ⟨fun htrue => ?_, fun hact => ?_⟩
    · rw [Vars.sonarActive, hen] at htrue
      cases htrue
    · rw [hstop.1] at hact
      cases hact.1

theorem Inv.startsReady {s : State} (h : s.Inv) {e : Event} (hc : s.Harmless e) :
    s.StartsReady e := by
  cases e with
  | thread op =>
    intro hpc
    unfold Inv at h
    rw [hpc] at h
    exact h.2.elim (fun hrun => absurd hrun.1 (hc hpc)) fun hstop => .inl hstop.1
  | dma => trivial
  | adc => trivial

theorem Inv.tells {s : State} {es : List Event} (h : s.Inv) (hm : s.Meets es) : s.Tells es := by
  induction es generalizing s with
  | nil => exact h.truthful
  | cons e es ih =>
    obtain ⟨t, ht, hinv⟩ := h.step hm.1
    exact ⟨h.truthful, h.startsReady hm.1, t, ht, ih hinv (hm.2 t ht)⟩

theorem inv_init : init.Inv := .inr ⟨rfl, rfl, rfl⟩

theorem Tells.truthful {s : State} {es : List Event} (h : s.Tells es) : s.Truthful := by
  cases es with
  | nil => exact h
  | cons e es => exact h.1

/-- An error inside `sonarStart`: the group is gone and `adc_lld_start_conversion` comes. -/
def Doomed (s : State) : Prop := (s.pc = .startState ∨ s.pc = .startLld) ∧ s.adcp.grpp = none

/-- The step after such an error, if there is one, is a statement of the thread or changes
nothing. -/
theorem Doomed.step {s t : State} {e : Event} (h : s.Doomed) (he : s.step e = some t) :
    t.Doomed ∧ (∀ op, e = .thread op → s.pc = .startState ∧ t.pc = .startLld) := by
  obtain ⟨pc, adcp, vars⟩ := s
  obtain ⟨hpc, hg⟩ := h
  replace hg : adcp.grpp = none := hg
  cases e with
  | thread op =>
    obtain rfl | rfl : pc = .startState ∨ pc = .startLld := hpc
    · cases he
      exact ⟨⟨.inr rfl, hg⟩, fun _ _ => ⟨rfl, rfl⟩⟩
    · replace he : (AdcDriver.lldStartConversion adcp).map _ = some t := he
      unfold AdcDriver.lldStartConversion at he
      rw [hg] at he
      cases he
  | dma flags b =>
    refine ⟨?_, fun _ h => by cases h⟩
    replace he : (AdcDriver.serveRxInterrupt adcp flags b.cells vars).map _ = some t := he
    unfold AdcDriver.serveRxInterrupt AdcDriver.isrErrorCode at he
    rw [hg] at he
    split at he
    · cases he
    · cases he
      exact ⟨hpc, hg⟩
  | adc ovr size =>
    refine ⟨?_, fun _ h => by cases h⟩
    replace he : (AdcDriver.adcIrqHandler adcp ovr size vars).map _ = some t := he
    unfold AdcDriver.adcIrqHandler at he
    rw [hg] at he
    split at he <;> cases he <;> exact ⟨hpc, hg⟩

theorem Doomed.not_tells {s : State} (h : s.Doomed) (es : List Event) :
    ¬ s.Tells (es ++ leave) := by
  induction es generalizing s with
  | nil =>
    rintro ⟨-, -, t, ht, -, -, u, hu, -⟩
    obtain ⟨htd, hpc⟩ := h.step ht
    obtain ⟨-, hpc'⟩ := htd.step hu
    have hlld := (hpc _ rfl).2
    rw [(hpc' _ rfl).1] at hlld
    cases hlld
  | cons e es ih =>
    rintro ⟨-, -, t, ht, hrest⟩
    exact ih (h.step ht).1 hrest

/-- An error with a group set, after which the thread leaves `sonarStart` or goes on as if nothing
had happened. -/
theorem recovers_of_error {s t : State} (h : s.Inv) (hsome : s.adcp.grpp.isSome = true)
    (hpc : t.pc = s.pc) (hstate : t.adcp.state = .ready) (hg : t.adcp.grpp = none)
    (hen : t.vars.sonarEn = s.vars.sonarEn) {es : List Event} (ht : t.Tells (es ++ leave)) :
    s.Recovers := by
  unfold Inv at h
  cases hs : s.pc with
  | idle =>
    rw [hs] at h
    obtain ⟨htrue, -⟩ | ⟨-, hstop⟩ := h
    · have hflag := (ht.truthful (hpc.trans hs)).1 (hen.trans htrue)
      rw [hstate] at hflag
      cases hflag.1
    · rw [hstop.2] at hsome
      cases hsome
  | startDepth => exact .inl hs
  | startGrpp =>
    rw [hs] at h
    rw [h.2.1.2] at hsome
    cases hsome
  | startState => exact absurd ht (Doomed.not_tells ⟨.inl (hpc.trans hs), hg⟩ es)
  | startLld => exact absurd ht (Doomed.not_tells ⟨.inr (hpc.trans hs), hg⟩ es)
  | stopTest => exact .inr (.inl hs)
  | stopLld => exact .inr (.inr (.inl hs))
  | stopGrpp => exact .inr (.inr (.inr (.inl hs)))
  | stopState => exact .inr (.inr (.inr (.inr hs)))

theorem harmless_of_tells {s t : State} {e : Event} (h : s.Inv) (hr : s.StartsReady e)
    (he : s.step e = some t) {es : List Event} (ht : t.Tells (es ++ leave)) : s.Harmless e := by
  cases e with
  | thread op =>
    intro hpc hact
    obtain hs | hs | hs := hr hpc <;> rw [hact] at hs <;> cases hs
  | dma flags b =>
    intro hf
    replace he : Option.map _ _ = some t := he
    unfold AdcDriver.serveRxInterrupt at he
    rw [if_pos hf] at he
    cases hg : s.adcp.grpp with
    | none =>
      unfold AdcDriver.isrErrorCode at he
      rw [hg] at he
      cases he
    | some g =>
      have hsome : s.adcp.grpp.isSome = true := by rw [hg]; rfl
      rw [isrErrorCode_some (h.group hsome)] at he
      have heq := Option.some.inj he
      exact ⟨rfl, recovers_of_error h hsome (by rw [← heq]) (by rw [← heq]) (by rw [← heq])
        (by rw [← heq]) ht⟩
  | adc ovr size =>
    intro hovr hsome
    replace he : Option.map _ _ = some t := he
    unfold AdcDriver.adcIrqHandler at he
    rw [if_pos hovr, h.group hsome] at he
    dsimp only at he
    rw [isrErrorCode_some (h.group hsome)] at he
    have heq := Option.some.inj he
    exact recovers_of_error h hsome (by rw [← heq]) (by rw [← heq]) (by rw [← heq])
      (by rw [← heq]) ht

theorem meets_of_tells_thread {s : State} {n : Nat} {op : Op}
    (h : s.Tells (List.replicate n (.thread op))) : s.Meets (List.replicate n (.thread op)) := by
  induction n generalizing s with
  | zero => trivial
  | succ n ih =>
    obtain ⟨-, hr, t, ht, hrest⟩ := h
    refine ⟨fun hpc hact => ?_, fun t' ht' => ?_⟩
    · obtain hs | hs | hs := hr hpc <;> rw [hact] at hs <;> cases hs
    · obtain rfl : t = t' := Option.some.inj (ht.symm.trans ht')
      exact ih hrest

theorem Inv.meets {s : State} {es : List Event} (h : s.Inv) (ht : s.Tells (es ++ leave)) :
    s.Meets (es ++ leave) := by
  induction es generalizing s with
  | nil => exact meets_of_tells_thread ht
  | cons e es ih =>
    obtain ⟨-, hr, t, he, hrest⟩ := ht
    have hc := harmless_of_tells h hr he hrest
    refine ⟨hc, fun t' he' => ?_⟩
    obtain rfl : t = t' := Option.some.inj (he.symm.trans he')
    obtain ⟨u, hu, hinv⟩ := h.step hc
    obtain rfl : t = u := Option.some.inj (he.symm.trans hu)
    exact ih hinv hrest

/-- **The flag tells the truth about the ADC** in every run of harmless steps, and in no other run
after which the thread leaves `sonarStart` and `sonarStop`. -/
theorem flag_true_iff (es : List Event) :
    (init.Meets es → init.Tells es) ∧ (init.Tells (es ++ leave) ↔ init.Meets (es ++ leave)) :=
  ⟨inv_init.tells, inv_init.meets, inv_init.tells⟩

/-- A conversion with one interrupt, and an overrun while `sonarStop` ends it. -/
theorem flag_true_stop :
    init.Tells ([.thread .sonarStart, .thread .motorActive, .thread .motorActive,
      .thread .motorActive, .thread .motorActive, .dma { htif := true } (.fill _ 100),
      .thread .sonarStop, .adc true 1] ++ leave) := by
  apply (flag_true_iff _).1
  iterate 7 (refine ⟨fun h => by cases h <;> decide, fun t ht => ?_⟩; cases ht)
  -- the overrun
  refine ⟨fun _ _ => .inr (.inl rfl), fun t ht => ?_⟩
  cases ht
  iterate 5 (refine ⟨fun h => (by cases h), fun t ht => ?_⟩; cases ht)
  trivial

/-- 'sonar 1', an overrun, and the flag stays set. -/
theorem flag_not_true : ¬ ∀ es : List Event, init.Tells (es ++ leave) := by
  intro h
  obtain ⟨-, -, s1, h1, -, -, s2, h2, -, -, s3, h3, -, -, s4, h4, -, -, s5, h5, -, -, s6, h6, ht⟩ :=
    h [.thread .sonarStart, .thread .motorActive, .thread .motorActive, .thread .motorActive,
      .thread .motorActive, .adc true 1]
  cases h1
  cases h2
  cases h3
  cases h4
  cases h5
  cases h6
  have hflag := (ht.truthful rfl).1 rfl
  cases hflag.1

end State

end RobotPws.Sonar
