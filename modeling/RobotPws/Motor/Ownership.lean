import RobotPws.Motor.Moves

/-!
# Who owns a side

At any time one party may touch the outputs of a side: the semaphore, when
nobody has taken it, the thread, the armed timer, or the tick handler running
the timer's function. `Instr.view` checks a call against what its caller owns
and `Safe` a list of calls; `Owned` says that a state has the owner `o`.
`step_owned` is the step lemma: every step keeps some owner.
-/

namespace RobotPws.Motor

open RobotPws.Lib RobotPws.Kernel RobotPws.Wifly RobotPws.Main

/-! ## Checking code -/

/-- What a party knows of the two outputs of a side; `none` if it does not own
them. -/
abbrev View : Type := Option (Duty × Duty)

/-- The view after a call, if its caller may make it. -/
def Instr.view (side : Side) : Instr → View → Option View
  | .chSysLock, v | .chSysUnlock, v => some v
  | .chBSemWait side', v =>
    if side' = side then if v = none then some (some (.off, .off)) else none else some v
  | .chBSemSignalI side', v =>
    if side' = side then if v = some (.off, .off) then some none else none else some v
  | .pwmEnableChannelI pin duty, v =>
    if pin = side.pin1 then v.bind fun d =>
      if duty = .motorSpeed ∧ d.2 = .motorSpeed then none else some (some (duty, d.2))
    else if pin = side.pin2 then v.bind fun d =>
      if duty = .motorSpeed ∧ d.1 = .motorSpeed then none else some (some (d.1, duty))
    else some v
  | .chVTSet side' _, v =>
    if side' = side then v.bind fun d => if d.1 = d.2 then none else some none else some v

/-- The code may be run by a party with the view `v`, which owns nothing at its
end. -/
def Safe (side : Side) (v : View) (code : List Instr) : Prop :=
  code.foldlM (fun v i => i.view side v) v = some none

theorem Safe.nil {side : Side} {v : View} (h : Safe side v []) : v = none := by
  simpa [Safe] using h

theorem safe_nil (side : Side) : Safe side none [] := rfl

theorem Safe.cons {side : Side} {v : View} {i : Instr} {code : List Instr}
    (h : Safe side v (i :: code)) : ∃ v', i.view side v = some v' ∧ Safe side v' code := by
  rw [Safe, List.foldlM_cons] at h
  exact Option.bind_eq_some_iff.1 h

theorem Safe.append {side : Side} {v : View} {code code' : List Instr} (h : Safe side v code)
    (h' : Safe side none code') : Safe side v (code ++ code') := by
  rw [Safe, List.foldlM_append, h]
  exact h'

/-! ### The functions of `serv_motor.c` -/

theorem safe_motor_on (side side' : Side) (dir : Direction) (time : UInt32) :
    Safe side none (motor_on side' dir ++ [.chVTSet side' time]) := by
  cases side <;> cases side' <;> cases dir <;> rfl

theorem safe_motorCode (side : Side) {op : Op} {code : List Instr} (h : motorCode op = some code) :
    Safe side none code := by
  unfold motorCode at h
  split at h <;> cases h
  · exact (safe_motor_on side .left .forward _).append (safe_motor_on side .right .forward _)
  · exact (safe_motor_on side .left .backward _).append (safe_motor_on side .right .backward _)
  · exact safe_motor_on side .left .forward _
  · exact safe_motor_on side .right .forward _

theorem safe_vtfunc (side : Side) (d : Duty × Duty) : Safe side (some d) (vtfunc side) := by
  obtain ⟨d1, d2⟩ := d
  cases side <;> cases d1 <;> cases d2 <;> rfl

theorem safe_vtfunc_of_ne {side side' : Side} (h : side' ≠ side) :
    Safe side none (vtfunc side') := by
  cases side <;> cases side' <;> first | exact absurd rfl h | rfl

/-! ## The owner of a side -/

/-- The two that run code. -/
inductive Role where
  | thread
  | isr
  deriving DecidableEq, Repr

inductive Owner where
  | semaphore
  | timer (d : Duty × Duty)
  | role (r : Role) (d : Duty × Duty)
  deriving DecidableEq, Repr

namespace Owner

/-- What is programmed on the two outputs. -/
def duties : Owner → Duty × Duty
  | semaphore => (.off, .off)
  | timer d | role _ d => d

/-- The part of it that a role owns. -/
def view (r : Role) : Owner → View
  | role r' d => if r' = r then some d else none
  | _ => none

def isTimer : Owner → Bool
  | timer _ => true
  | _ => false

end Owner

/-- The calls the thread still has to make. -/
def Thread.code {σ : Type} : Thread σ → List Instr
  | run code _ => code
  | suspended side code _ => .chBSemWait side :: code
  | _ => []

def Thread.waitsFor {σ : Type} (side : Side) : Thread σ → Bool
  | suspended side' _ _ => side' = side
  | _ => false

def Isr.code : Isr → List Instr
  | callback code => code
  | _ => []

def Sys.code {σ : Type} (s : Sys σ) : Role → List Instr
  | .thread => s.thread.code
  | .isr => s.isr.code

/-- The output carries the duty. -/
def Duty.Shows : Duty → Nat → Prop
  | off, w => w = 0
  | motorSpeed, w => 0 < w

/-- The state `s` has the owner `o` for the side. -/
structure Owned {σ : Type} (ch : Channels) (side : Side) (s : Sys σ) (o : Owner) : Prop where
  cnt : (s.sem side).cnt =
    if o = .semaphore then 1 else if s.thread.waitsFor side then -1 else 0
  waits : s.thread.waitsFor side = true → o ≠ .semaphore
  linked : (DeltaList.keys s.vtlist).count (.motor side) = if o.isTimer then 1 else 0
  safe : ∀ r, Safe side (o.view r) (s.code r)
  output1 : o.duties.1.Shows (s.ccr (ch.value side.pin1))
  output2 : o.duties.2.Shows (s.ccr (ch.value side.pin2))
  oneOff : o.duties.1 = .off ∨ o.duties.2 = .off
  running : o.isTimer = true → o.duties.1 ≠ o.duties.2

/-- What `motorSetSpeed` allows. -/
def Sys.SpeedOk {σ : Type} (s : Sys σ) : Prop := 2500 ≤ s.motorSpeed ∧ s.motorSpeed ≤ 10000

section
variable {σ : Type} {ch : Channels} {side : Side} {s t : Sys σ} {o : Owner} {r : Role}

theorem Owner.view_eq_some {d : Duty × Duty} : o.view r = some d ↔ o = .role r d := by
  cases o with
  | role r' d' =>
    by_cases h : r' = r
    · simp [Owner.view, h]
    · simp [Owner.view, h]
  | semaphore | timer => simp [Owner.view]

theorem Owner.view_of_ne {r' : Role} {d : Duty × Duty} (h : r' ≠ r) :
    (Owner.role r d).view r' = none := if_neg (Ne.symm h)

theorem shows_width (hs : s.SpeedOk) (duty : Duty) : duty.Shows (s.width duty) := by
  cases duty with
  | off => rfl
  | motorSpeed =>
    obtain ⟨h1, h2⟩ := hs
    have hmod : 20 * s.motorSpeed % 2 ^ 32 = 20 * s.motorSpeed := Nat.mod_eq_of_lt (by omega)
    simp only [Duty.Shows, Sys.width, pwmPercentageToWidth, hmod]
    omega

/-- A state that differs only in what the side does not depend on. -/
theorem Owned.congr (h : Owned ch side s o)
    (hccr : ∀ pin, pin = side.pin1 ∨ pin = side.pin2 → t.ccr (ch.value pin) = s.ccr (ch.value pin))
    (hsem : t.sem side = s.sem side) (hw : t.thread.waitsFor side = s.thread.waitsFor side)
    (hkeys : (DeltaList.keys t.vtlist).count (.motor side) =
      (DeltaList.keys s.vtlist).count (.motor side))
    (hsafe : ∀ r, Safe side (o.view r) (t.code r)) : Owned ch side t o where
  cnt := by rw [hsem, hw]; exact h.cnt
  waits := by rw [hw]; exact h.waits
  linked := by rw [hkeys]; exact h.linked
  safe := hsafe
  output1 := by rw [hccr _ (.inl rfl)]; exact h.output1
  output2 := by rw [hccr _ (.inr rfl)]; exact h.output2
  oneOff := h.oneOff
  running := h.running

theorem ready_waitsFor {side' : Side} (hne : side' ≠ side) (t : Thread σ) :
    (t.ready side').waitsFor side = t.waitsFor side := by
  cases t with
  | suspended side'' code x =>
    by_cases h : side'' = side'
    · subst h
      simp [Thread.ready, Thread.waitsFor, hne]
    · simp [Thread.ready, h]
  | _ => rfl

theorem ready_safe {side' : Side} (hne : side' ≠ side) {t : Thread σ} {v : View}
    (h : Safe side v t.code) : Safe side v (t.ready side').code := by
  cases t with
  | suspended side'' code x =>
    by_cases hs : side'' = side'
    · subst hs
      obtain ⟨v', hv, hc⟩ := h.cons
      rw [Instr.view, if_neg hne, Option.some.injEq] at hv
      simpa [Thread.ready, Thread.code, hv] using hc
    · simpa [Thread.ready, hs] using h
  | _ => exact h

/-- `s₁` is `s` with the first call of `r` taken off its code. -/
structure Taken (s s₁ : Sys σ) (side : Side) (r : Role) (i : Instr) (code : List Instr) :
    Prop where
  before : s.code r = i :: code
  after : s₁.code r = code
  other : ∀ r', r' ≠ r → s₁.code r' = s.code r'
  ccr : s₁.ccr = s.ccr
  sem : s₁.sem = s.sem
  vtlist : s₁.vtlist = s.vtlist
  motorSpeed : s₁.motorSpeed = s.motorSpeed
  signals : s₁.signals = s.signals
  waitsFor : s₁.thread.waitsFor side = s.thread.waitsFor side
  running : r = .thread → s₁.thread.waitsFor side = false

theorem Taken.safe {s₁ : Sys σ} {i : Instr} {code : List Instr} (ht : Taken s s₁ side r i code)
    (h : Owned ch side s o) {o' : Owner} (hr : Safe side (o'.view r) code)
    (hview : ∀ r', r' ≠ r → o'.view r' = o.view r') :
    ∀ r', Safe side (o'.view r') (s₁.code r') := by
  intro r'
  by_cases hne : r' = r
  · rw [hne, ht.after]
    exact hr
  · rw [hview r' hne, ht.other r' hne]
    exact h.safe r'

theorem Side.pin_ne (side : Side) : side.pin1 ≠ side.pin2 := by cases side <;> decide

theorem update_value {f : Nat → Nat} {pin pin' : Pin} (h : pin ≠ pin') (w : Nat) :
    Function.update f (ch.value pin) w (ch.value pin') = f (ch.value pin') :=
  Function.update_of_ne (ch.distinct.ne (Ne.symm h)) _ _

theorem execute_code (s : Sys σ) {i : Instr} (hi : ∀ side', i ≠ .chBSemSignalI side') (r : Role) :
    (s.execute ch i).code r = s.code r := by
  cases i with
  | chBSemSignalI side' => exact absurd rfl (hi side')
  | _ => cases r <;> rfl

theorem Owned.write {s₁ : Sys σ} {d d' : Duty × Duty} {pin : Pin} {duty : Duty}
    {code : List Instr} (h : Owned ch side s (.role r d))
    (ht : Taken s s₁ side r (.pwmEnableChannelI pin duty) code) (hcode : Safe side (some d') code)
    (h1 : d'.1.Shows ((s₁.execute ch (.pwmEnableChannelI pin duty)).ccr (ch.value side.pin1)))
    (h2 : d'.2.Shows ((s₁.execute ch (.pwmEnableChannelI pin duty)).ccr (ch.value side.pin2)))
    (hoff : d'.1 = .off ∨ d'.2 = .off) :
    Owned ch side (s₁.execute ch (.pwmEnableChannelI pin duty)) (.role r d') where
  cnt := by simpa [Sys.execute, ht.sem, ht.waitsFor] using h.cnt
  waits := fun _ => by simp
  linked := by rw [Sys.execute, ht.vtlist]; exact h.linked
  safe := fun r' => by
    rw [execute_code s₁ (by simp)]
    exact ht.safe h (by simpa [Owner.view] using hcode)
      (fun r' hr => by rw [Owner.view_of_ne hr, Owner.view_of_ne hr]) r'
  output1 := h1
  output2 := h2
  oneOff := hoff
  running := fun h => by cases h

/-- A programmed output belongs to the caller or to the other side. -/
theorem Owned.pwmEnableChannelI {s₁ : Sys σ} {pin : Pin} {duty : Duty} {code : List Instr}
    (h : Owned ch side s o) (hs : s₁.SpeedOk)
    (ht : Taken s s₁ side r (.pwmEnableChannelI pin duty) code) :
    ∃ o', Owned ch side (s₁.execute ch (.pwmEnableChannelI pin duty)) o' := by
  obtain ⟨v, hv, hcode⟩ := (ht.before ▸ h.safe r).cons
  have hwidth := shows_width hs duty
  have hor : ∀ {d : Duty}, ¬ (duty = .motorSpeed ∧ d = .motorSpeed) → duty = .off ∨ d = .off := by
    intro d hd
    cases duty <;> cases d <;> simp_all
  rw [Instr.view] at hv
  split at hv
  · next hp =>
    obtain ⟨d, hd, hv'⟩ := Option.bind_eq_some_iff.1 hv
    obtain rfl := Owner.view_eq_some.1 hd
    split at hv'
    · cases hv'
    · next hboth =>
      obtain rfl := Option.some.inj hv'
      refine ⟨_, h.write ht hcode ?_ ?_ (hor hboth)⟩
      · simpa [Sys.execute, ← hp] using hwidth
      · simp only [Sys.execute, hp, update_value side.pin_ne, ht.ccr]
        exact h.output2
  · next hp1 =>
    split at hv
    · next hp =>
      obtain ⟨d, hd, hv'⟩ := Option.bind_eq_some_iff.1 hv
      obtain rfl := Owner.view_eq_some.1 hd
      split at hv'
      · cases hv'
      · next hboth =>
        obtain rfl := Option.some.inj hv'
        refine ⟨_, h.write ht hcode ?_ ?_ (hor hboth).symm⟩
        · simp only [Sys.execute, hp, update_value side.pin_ne.symm, ht.ccr]
          exact h.output1
        · simpa [Sys.execute, ← hp] using hwidth
    · next hp2 =>
      refine ⟨o, h.congr ?_ (by rw [Sys.execute, ht.sem]) ht.waitsFor
        (by rw [Sys.execute, ht.vtlist]) fun r' => ?_⟩
      · rintro pin' (rfl | rfl)
        · simp only [Sys.execute, update_value hp1, ht.ccr]
        · simp only [Sys.execute, update_value hp2, ht.ccr]
      · rw [execute_code s₁ (by simp)]
        exact ht.safe h (Option.some.inj hv ▸ hcode) (fun _ _ => rfl) r'

/-- The side's timer is armed by the owner only, and takes over from it. -/
theorem Owned.chVTSet {s₁ : Sys σ} {side' : Side} {time : UInt32} {code : List Instr}
    (h : Owned ch side s o) (ht : Taken s s₁ side r (.chVTSet side' time) code) :
    ∃ o', Owned ch side (s₁.execute ch (.chVTSet side' time)) o' := by
  obtain ⟨v, hv, hcode⟩ := (ht.before ▸ h.safe r).cons
  have hkeys : (DeltaList.keys (s₁.execute ch (.chVTSet side' time)).vtlist).count (.motor side) =
      (DeltaList.keys s.vtlist).count (.motor side) + if side' = side then 1 else 0 := by
    rw [Sys.execute, VTList.chVTSetI, (DeltaList.keys_insert ..).count_eq, List.count_cons,
      ht.vtlist]
    simp
  rw [Instr.view] at hv
  split at hv
  · next hside =>
    obtain ⟨d, hd, hv'⟩ := Option.bind_eq_some_iff.1 hv
    obtain rfl := Owner.view_eq_some.1 hd
    split at hv'
    · cases hv'
    · next hne =>
      obtain rfl := Option.some.inj hv'
      refine ⟨.timer d, ?_, fun _ => by simp, ?_, ?_, ?_, ?_, h.oneOff, fun _ => hne⟩
      · simpa [Sys.execute, ht.sem, ht.waitsFor] using h.cnt
      · rw [hkeys, h.linked, if_pos hside]
        rfl
      · intro r'
        rw [execute_code s₁ (by simp)]
        exact ht.safe h (show Safe side ((Owner.timer d).view r) code from hcode)
          (fun r' hr => by rw [Owner.view_of_ne hr]; rfl) r'
      · rw [Sys.execute, ht.ccr]
        exact h.output1
      · rw [Sys.execute, ht.ccr]
        exact h.output2
  · next hside =>
    refine ⟨o, h.congr (fun _ _ => by rw [Sys.execute, ht.ccr]) (by rw [Sys.execute, ht.sem])
      ht.waitsFor (by rw [hkeys, if_neg hside, Nat.add_zero]) fun r' => ?_⟩
    rw [execute_code s₁ (by simp)]
    exact ht.safe h (Option.some.inj hv ▸ hcode) (fun _ _ => rfl) r'

theorem Owned.signal_cases {s₁ : Sys σ} {d : Duty × Duty} {code : List Instr}
    (h : Owned ch side s (.role r d)) (ht : Taken s s₁ side r (.chBSemSignalI side) code) :
    (s₁.thread.waitsFor side = false ∧ (s₁.sem side).chBSemSignalI = (⟨1⟩, false)) ∨
    (r = .isr ∧ ∃ code' x, s₁.thread = .suspended side code' x ∧
      (s₁.sem side).chBSemSignalI = (⟨0⟩, true) ∧ Safe side (some (.off, .off)) code') := by
  have hcnt := h.cnt
  rw [if_neg (by simp), ← ht.waitsFor, ← ht.sem] at hcnt
  cases hw : s₁.thread.waitsFor side with
  | false =>
    rw [hw, if_neg (by simp)] at hcnt
    exact .inl ⟨rfl, by simp [BinarySemaphore.chBSemSignalI, hcnt]⟩
  | true =>
    rw [hw, if_pos rfl] at hcnt
    have hr : r = .isr := by
      cases r with
      | isr => rfl
      | thread => rw [ht.running rfl] at hw; cases hw
    obtain ⟨code', x, hth⟩ : ∃ code' x, s₁.thread = .suspended side code' x := by
      cases hth : s₁.thread with
      | suspended side' code' x =>
        rw [hth] at hw
        have hs : side' = side := by simpa [Thread.waitsFor] using hw
        exact ⟨code', x, by rw [hs]⟩
      | _ => rw [hth] at hw; cases hw
    refine .inr ⟨hr, code', x, hth, by simp [BinarySemaphore.chBSemSignalI, hcnt], ?_⟩
    -- the code of the waiting thread has been checked from its wait on
    have hne : Role.thread ≠ r := by rw [hr]; simp
    have hcode := h.safe .thread
    rw [Owner.view_of_ne hne, ← ht.other _ hne, Sys.code, hth] at hcode
    obtain ⟨v, hv, hcode⟩ := hcode.cons
    rw [Instr.view, if_pos rfl, if_pos rfl, Option.some.injEq] at hv
    rw [hv]
    exact hcode

theorem Owned.chBSemSignalI {s₁ : Sys σ} {side' : Side} {code : List Instr}
    (h : Owned ch side s o) (ht : Taken s s₁ side r (.chBSemSignalI side') code) :
    ∃ o', Owned ch side (s₁.execute ch (.chBSemSignalI side')) o' := by
  obtain ⟨v, hv, hcode⟩ := (ht.before ▸ h.safe r).cons
  rw [Instr.view] at hv
  split at hv
  · next hside =>
    subst hside
    split at hv
    · next hview =>
      obtain rfl := Owner.view_eq_some.1 hview
      obtain rfl := Option.some.inj hv
      have ho1 : s₁.ccr (ch.value side'.pin1) = 0 := by rw [ht.ccr]; exact h.output1
      have ho2 : s₁.ccr (ch.value side'.pin2) = 0 := by rw [ht.ccr]; exact h.output2
      have hl : (DeltaList.keys s₁.vtlist).count (.motor side') = 0 := by
        rw [ht.vtlist]; exact h.linked
      obtain ⟨hw, hsem⟩ | ⟨rfl, code', x, hth, hsem, hcode'⟩ := h.signal_cases ht
      · refine ⟨.semaphore, ?_, ?_, hl, fun r' => ?_, ho1, ho2, .inl rfl, fun h => by cases h⟩
        · simp [Sys.execute, hsem]
        · simp [Sys.execute, hsem, hw]
        · have hc : (s₁.execute ch (.chBSemSignalI side')).code r' = s₁.code r' := by
            cases r' <;> simp [Sys.execute, hsem, Sys.code]
          rw [hc]
          exact ht.safe h (show Safe side' (Owner.semaphore.view r) code from hcode)
            (fun r' hr => by rw [Owner.view_of_ne hr]; rfl) r'
      · refine ⟨.role .thread (.off, .off), ?_, fun _ => by simp, hl, fun r' => ?_, ho1, ho2,
          .inl rfl, fun h => by cases h⟩
        · simp [Sys.execute, hsem, hth, Thread.ready, Thread.waitsFor]
        · cases r' with
          | thread =>
            simp only [Sys.execute, hsem, hth, Thread.ready, Sys.code, ↓reduceIte]
            exact hcode'
          | isr =>
            have hi := ht.after
            simp only [Sys.code] at hi
            simpa [Sys.execute, hsem, Sys.code, hi, Owner.view] using hcode
    · cases hv
  · next hside =>
    have hthread : ∀ {t : Thread σ}, t = (s₁.execute ch (.chBSemSignalI side')).thread →
        t = s₁.thread.ready side' ∨ t = s₁.thread := by
      rintro t rfl
      simp only [Sys.execute]
      split
      · exact .inl rfl
      · exact .inr rfl
    refine ⟨o, h.congr (fun _ _ => by simp only [Sys.execute, ht.ccr]) ?_ ?_ ?_ fun r' => ?_⟩
    · simp only [Sys.execute, Function.update_of_ne (Ne.symm hside), ht.sem]
    · rcases hthread rfl with he | he <;> rw [he]
      · rw [ready_waitsFor hside, ht.waitsFor]
      · exact ht.waitsFor
    · simp only [Sys.execute, ht.vtlist]
    · have hsafe := ht.safe h (Option.some.inj hv ▸ hcode) (fun _ _ => rfl) r'
      cases r' with
      | isr => exact hsafe
      | thread =>
        rw [Sys.code]
        rcases hthread rfl with he | he <;> rw [he]
        · exact ready_safe hside hsafe
        · exact hsafe

theorem Owned.execute {s₁ : Sys σ} {i : Instr} {c : List Instr} (h : Owned ch side s o)
    (hs : s₁.SpeedOk) (ht : Taken s s₁ side r i c) (hi : i.isWait = false) :
    ∃ o', Owned ch side (s₁.execute ch i) o' := by
  cases i with
  | chSysLock | chSysUnlock =>
    obtain ⟨v, hv, hcode⟩ := (ht.before ▸ h.safe r).cons
    refine ⟨o, h.congr (fun _ _ => by rw [Sys.execute, ht.ccr]) (by rw [Sys.execute, ht.sem])
      ht.waitsFor (by rw [Sys.execute, ht.vtlist]) fun r' => ?_⟩
    rw [execute_code s₁ (by simp)]
    exact ht.safe h (Option.some.inj hv ▸ hcode) (fun _ _ => rfl) r'
  | chBSemWait side' => cases hi
  | chBSemSignalI side' => exact h.chBSemSignalI ht
  | pwmEnableChannelI pin duty => exact h.pwmEnableChannelI hs ht
  | chVTSet side' time => exact h.chVTSet ht

/-! ## Steps -/

variable {cb : ProtocolCallback Op σ}

theorem Owned.quiet (h : Owned ch side s o) {th : Thread σ} (hcode : s.thread.code = [])
    (hw : s.thread.waitsFor side = false) (hth : Safe side none th.code)
    (hw' : th.waitsFor side = false) : Owned ch side { s with thread := th } o := by
  refine h.congr (fun _ _ => rfl) rfl (hw'.trans hw.symm) rfl fun r => ?_
  cases r with
  | isr => exact h.safe .isr
  | thread =>
    have hv := h.safe .thread
    rw [Sys.code, hcode] at hv
    rw [hv.nil]
    exact hth

/-- `chBSemWait` takes the free semaphore or suspends the thread. -/
theorem Owned.chBSemWait (h : Owned ch side s o) {side' : Side} {code : List Instr} {x : σ}
    (hth : s.thread = .run (.chBSemWait side' :: code) x) :
    (0 ≤ (s.sem side').cnt - 1 → ∃ o', Owned ch side { s with
      sem := Function.update s.sem side' ⟨(s.sem side').cnt - 1⟩, thread := .run code x } o') ∧
    ((s.sem side').cnt - 1 < 0 → Owned ch side { s with
      sem := Function.update s.sem side' ⟨(s.sem side').cnt - 1⟩
      thread := .suspended side' code x } o) := by
  have hcode := h.safe .thread
  rw [Sys.code, hth] at hcode
  have hw : s.thread.waitsFor side = false := by rw [hth]; rfl
  have hcnt := h.cnt
  rw [hw] at hcnt
  obtain ⟨v, hv, hrest⟩ := hcode.cons
  rw [Instr.view] at hv
  split at hv
  · next hside =>
    subst hside
    split at hv
    · next hview =>
      obtain rfl := Option.some.inj hv
      constructor
      · intro hfree
        obtain rfl : o = .semaphore := by
          by_contra ho
          rw [if_neg ho] at hcnt
          simp at hcnt
          omega
        refine ⟨.role .thread (.off, .off), ?_, fun _ => by simp, h.linked, fun r => ?_, h.output1,
          h.output2, .inl rfl, fun h => by cases h⟩
        · simp [hcnt, Thread.waitsFor]
        · cases r with
          | thread => exact hrest
          | isr => exact h.safe .isr
      · intro htaken
        have ho : o ≠ .semaphore := by
          rintro rfl
          rw [if_pos rfl] at hcnt
          omega
        rw [if_neg ho] at hcnt
        refine ⟨?_, fun _ => ho, h.linked, fun r => ?_, h.output1, h.output2, h.oneOff, h.running⟩
        · simp [hcnt, ho, Thread.waitsFor]
        · cases r with
          | thread => exact hcode
          | isr => exact h.safe .isr
    · cases hv
  · next hside =>
    have hsem : Function.update s.sem side' ⟨(s.sem side').cnt - 1⟩ side = s.sem side :=
      Function.update_of_ne (Ne.symm hside) _ _
    constructor
    · intro _
      refine ⟨o, h.congr (fun _ _ => rfl) hsem (by rw [hw]; rfl) rfl fun r => ?_⟩
      cases r with
      | thread => rw [Option.some.inj hv]; exact hrest
      | isr => exact h.safe .isr
    · intro _
      refine h.congr (fun _ _ => rfl) hsem (by rw [hw]; simpa [Thread.waitsFor] using hside) rfl
        fun r => ?_
      cases r with
      | thread => exact hcode
      | isr => exact h.safe .isr

theorem Owned.handler (h : Owned ch side s o) {l : VTList Vt} {isr : Isr} {locked : Bool}
    (hl : (DeltaList.keys l).count (.motor side) = (DeltaList.keys s.vtlist).count (.motor side))
    (hcode : s.isr.code = []) (hcode' : isr.code = []) :
    Owned ch side { s with vtlist := l, locked := locked, isr := isr } o := by
  refine h.congr (fun _ _ => rfl) rfl rfl hl fun r => ?_
  cases r with
  | thread => exact h.safe .thread
  | isr =>
    rw [Sys.code, hcode', ← hcode]
    exact h.safe .isr

theorem Owned.expire (h : Owned ch side s o) {side' : Side} {l : VTList Vt}
    (hi : s.isr = .sweep) (hl : s.vtlist = (.motor side', 0) :: l) :
    ∃ o', Owned ch side { s with
      vtlist := l, locked := false, isr := .callback (vtfunc side') } o' := by
  have hview : o.view .isr = none := by
    have := h.safe .isr
    rw [Sys.code, hi] at this
    exact this.nil
  have hcount := h.linked
  rw [hl, DeltaList.keys_cons, List.count_cons] at hcount
  by_cases hside : side' = side
  · subst hside
    cases o with
    | timer d =>
      refine ⟨.role .isr d, h.cnt, fun _ => by simp, ?_, fun r => ?_, h.output1, h.output2,
        h.oneOff, fun h => by cases h⟩
      · simpa [Owner.isTimer] using hcount
      · cases r with
        | thread => exact h.safe .thread
        | isr => exact safe_vtfunc side' d
    | semaphore | role => simp [Owner.isTimer] at hcount
  · refine ⟨o, h.congr (fun _ _ => rfl) rfl rfl ?_ fun r => ?_⟩
    · rw [hl, DeltaList.keys_cons, List.count_cons_of_ne (by simpa using hside)]
    · cases r with
      | thread => exact h.safe .thread
      | isr =>
        rw [hview]
        exact safe_vtfunc_of_ne hside

/-- Every step keeps some owner. -/
theorem step_owned {a : Act} (h : Owned ch side s o) (hs : s.SpeedOk)
    (hm : Sys.Move ch cb s a t) : ∃ o', Owned ch side t o' := by
  cases hm with
  | command _ _ _ hth | ret _ _ _ _ hth | finish _ _ _ hth | leftActive _ _ hth
  | leftInactive _ _ hth | rightActive _ _ hth | leave _ _ hth =>
    exact ⟨o, h.quiet (by rw [hth]; rfl) (by rw [hth]; rfl) (safe_nil side) rfl⟩
  | enter x op code _ hth _ hc =>
    exact ⟨o, h.quiet (by rw [hth]; rfl) (by rw [hth]; rfl) (safe_motorCode side hc) rfl⟩
  | take side' code x _ hth hcnt => exact (h.chBSemWait hth).1 hcnt
  | suspend side' code x _ hth hcnt => exact ⟨o, (h.chBSemWait hth).2 hcnt⟩
  | threadCall i code x _ hth hi =>
    refine h.execute (r := .thread) (c := code) hs ⟨by rw [Sys.code, hth]; rfl, rfl, ?_, rfl, rfl,
      rfl, rfl, rfl, by rw [hth]; rfl, fun _ => rfl⟩ hi
    intro r' hr
    cases r' with
    | thread => exact absurd rfl hr
    | isr => rfl
  | isrCall i code hisr hi =>
    refine h.execute (r := .isr) (c := code) hs ⟨by rw [Sys.code, hisr]; rfl, rfl, ?_, rfl, rfl,
      rfl, rfl, rfl, rfl, fun h => by cases h⟩ hi
    intro r' hr
    cases r' with
    | thread => rfl
    | isr => exact absurd rfl hr
  | tick hi _ =>
    exact ⟨o, h.handler (by rw [VTList.keys_decrement]) (by rw [hi]; rfl) rfl⟩
  | sweepEnd hi _ => exact ⟨o, h.handler rfl (by rw [hi]; rfl) rfl⟩
  | callbackEnd hi => exact ⟨o, h.handler rfl (by rw [hi]; rfl) rfl⟩
  | expire side' l hi hl => exact h.expire hi hl
  | expireOther k l hi hl =>
    refine ⟨o, h.handler ?_ (by rw [hi]; rfl) rfl⟩
    rw [hl, DeltaList.keys_cons, List.count_cons_of_ne (by simp)]
  | setOther k time _ _ =>
    refine ⟨o, h.congr (fun _ _ => rfl) rfl rfl ?_ h.safe⟩
    rw [VTList.chVTSetI, (DeltaList.keys_insert ..).count_eq, List.count_cons_of_ne (by simp)]
  | resetOther k _ _ =>
    refine ⟨o, h.congr (fun _ _ => rfl) rfl rfl ?_ h.safe⟩
    rw [VTList.keys_chVTResetI, List.count_erase_of_ne (by simp)]
  | setSpeed | sameSpeed => exact ⟨o, h.congr (fun _ _ => rfl) rfl rfl rfl h.safe⟩

theorem step_speed {a : Act} (h : s.SpeedOk) (hm : Sys.Move ch cb s a t) : t.SpeedOk := by
  cases hm with
  | threadCall i | isrCall i => cases i <;> exact h
  | setSpeed v _ h1 h2 => exact ⟨by simp only; omega, by simp only; omega⟩
  | _ => exact h

theorem init_owned (ch : Channels) (side : Side) (ccr : Nat → Nat) :
    Owned ch side (Sys.init ch ccr : Sys σ) .semaphore := by
  refine ⟨rfl, fun h => (by cases h), rfl, fun r => ?_, ?_, ?_, .inl rfl, fun h => (by cases h)⟩
  · cases r <;> exact safe_nil side
  · cases side <;> simp [Sys.init, Owner.duties, Duty.Shows, pwmPercentageToWidth, Side.pin1]
  · cases side <;> simp [Sys.init, Owner.duties, Duty.Shows, pwmPercentageToWidth, Side.pin2]

/-- Every state reached has an owner for the side. -/
theorem reach_owned {ccr : Nat → Nat} {C : Sys σ → Act → Prop}
    (h : Reach (Sys.step ch cb) C (Sys.init ch ccr) s) (side : Side) :
    s.SpeedOk ∧ ∃ o, Owned ch side s o := by
  refine h.inv (I := fun s => s.SpeedOk ∧ ∃ o, Owned ch side s o)
    ⟨⟨Nat.le_of_ble_eq_true rfl, Nat.le_of_ble_eq_true rfl⟩, _, init_owned ch side ccr⟩
    fun s a t hi _ hs => ?_
  have hm := Sys.step_move hs
  obtain ⟨hspeed, o, ho⟩ := hi
  exact ⟨step_speed hspeed hm, step_owned ho hspeed hm⟩

end

end RobotPws.Motor
