import RobotPws.Motor.Commands
import RobotPws.Motor.OnTime

/-!
# Turning a motor off

The public functions of `serv_motor.c` called by one thread in any order, among
ticks and the other users of the timer list. `motorLeftOff`, `motorRightOff` and
`motorOff` free the semaphore of a side and leave its timer linked; as long as
no start takes the semaphore of a side whose timer is still linked (`StopOk`),
the timer is armed only when it is not linked and every run lasts its ticks.

A side between two calls has an owner, or it has been turned off and its timer
has still to expire, or that timer is just expiring (`Held`). A thread that is
turning it off is before the lock zone (`pending`) or in it (`stopping`), where
nothing else moves.
-/

namespace RobotPws.Motor

open RobotPws.Lib RobotPws.Kernel RobotPws.Wifly RobotPws.Main

/-! ## The functions -/

def motorLeftOff : List Instr := motor_off .left
def motorRightOff : List Instr := motor_off .right
def motorOff : List Instr := motorLeftOff ++ motorRightOff

/-- The functions that start and stop the motors. -/
inductive Api where
  | motorLeftForwardS (milli : Int)
  | motorLeftBackwardS (milli : Int)
  | motorRightForwardS (milli : Int)
  | motorRightBackwardS (milli : Int)
  | motorForwardS (milli : Int)
  | motorBackwardS (milli : Int)
  | motorLeftOff
  | motorRightOff
  | motorOff
  deriving DecidableEq, Repr

namespace Api

def code : Api → List Instr
  | motorLeftForwardS milli => Motor.motorLeftForwardS milli
  | motorLeftBackwardS milli => Motor.motorLeftBackwardS milli
  | motorRightForwardS milli => Motor.motorRightForwardS milli
  | motorRightBackwardS milli => Motor.motorRightBackwardS milli
  | motorForwardS milli => Motor.motorForwardS milli
  | motorBackwardS milli => Motor.motorBackwardS milli
  | motorLeftOff => Motor.motorLeftOff
  | motorRightOff => Motor.motorRightOff
  | motorOff => Motor.motorOff

/-- The duration asked for. -/
def milli : Api → Option Int
  | motorLeftForwardS milli | motorLeftBackwardS milli | motorRightForwardS milli
  | motorRightBackwardS milli | motorForwardS milli | motorBackwardS milli => some milli
  | motorLeftOff | motorRightOff | motorOff => none

/-- The duration is positive and `MS2ST` of it does not overflow. -/
def InRange (c : Api) : Prop := ∀ milli ∈ c.milli, 1 ≤ milli ∧ milli ≤ 2147484

instance (c : Api) : Decidable c.InRange :=
  inferInstanceAs (Decidable (∀ milli ∈ c.milli, 1 ≤ milli ∧ milli ≤ 2147484))

/-- The function turns the side off. -/
def stops (side : Side) : Api → Bool
  | motorLeftOff => side = .left
  | motorRightOff => side = .right
  | motorOff => true
  | _ => false

theorem time_of_mem {c : Api} {side : Side} {time : UInt32} (h : .chVTSet side time ∈ c.code) :
    ∃ milli, c.milli = some milli ∧ time = ms2st milli := by
  cases c <;>
    simp [code, milli, Motor.motorLeftForwardS, Motor.motorLeftBackwardS, Motor.motorRightForwardS,
      Motor.motorRightBackwardS, Motor.motorForwardS, Motor.motorBackwardS, motor_left_on,
      motor_right_on, motor_on, Motor.motorLeftOff, Motor.motorRightOff, Motor.motorOff,
      motor_off] at h ⊢
  all_goals first | exact h.2 | exact h.elim And.right And.right

/-- A function that does not turn the side off leaves it as it found it. -/
theorem safe_code {c : Api} {side : Side} (h : c.stops side = false) : Safe side none c.code := by
  cases c with
  | motorLeftForwardS milli => exact safe_motor_on side .left .forward _
  | motorLeftBackwardS milli => exact safe_motor_on side .left .backward _
  | motorRightForwardS milli => exact safe_motor_on side .right .forward _
  | motorRightBackwardS milli => exact safe_motor_on side .right .backward _
  | motorForwardS milli =>
    exact (safe_motor_on side .left .forward _).append (safe_motor_on side .right .forward _)
  | motorBackwardS milli =>
    exact (safe_motor_on side .left .backward _).append (safe_motor_on side .right .backward _)
  | motorLeftOff =>
    exact safe_vtfunc_of_ne fun he : Side.left = side => by simp [stops, ← he] at h
  | motorRightOff =>
    exact safe_vtfunc_of_ne fun he : Side.right = side => by simp [stops, ← he] at h
  | motorOff => cases h

theorem code_of_stops {c : Api} {side : Side} (h : c.stops side = true) :
    ∃ pre post, c.code = pre ++ (motor_off side ++ post) ∧ Safe side none pre ∧
      Safe side none post ∧ ∃ side', pre <:+ vtfunc side' := by
  cases c with
  | motorLeftOff =>
    obtain rfl : side = .left := by simpa [stops] using h
    exact ⟨[], [], rfl, rfl, rfl, .left, List.nil_suffix⟩
  | motorRightOff =>
    obtain rfl : side = .right := by simpa [stops] using h
    exact ⟨[], [], rfl, rfl, rfl, .left, List.nil_suffix⟩
  | motorOff =>
    cases side with
    | left => exact ⟨[], motor_off .right, rfl, rfl, rfl, .left, List.nil_suffix⟩
    | right => exact ⟨motor_off .left, [], rfl, rfl, rfl, .left, List.suffix_rfl⟩
  | _ => cases h

end Api

/-! ## The machine -/

/-- A caller that does nothing between its calls. -/
def apiCallback : ProtocolCallback Op Api where
  start _ _ := .motorOff
  req _ := .ret .ok
  sent c _ := c
  read c _ _ := c
  result c _ := c

inductive ApiAct where
  /-- the thread calls a function -/
  | call (c : Api)
  /-- anything else but a command -/
  | sys (a : Act)

def Sys.apiStep (ch : Channels) (s : Sys Api) : ApiAct → Option (Sys Api)
  | .call c =>
    if s.isr = .idle ∧ s.thread = .idle then some { s with thread := .run c.code c } else none
  | .sys (.command _ _) => none
  | .sys a => s.step ch apiCallback a

theorem Sys.apiStep_cases {ch : Channels} {s t : Sys Api} {a : ApiAct}
    (h : s.apiStep ch a = some t) :
    (∃ c, a = .call c ∧ s.isr = .idle ∧ s.thread = .idle ∧ t = { s with thread := .run c.code c }) ∨
    ∃ b, a = .sys b ∧ Move ch apiCallback s b t := by
  cases a with
  | call c =>
    simp only [apiStep] at h
    split at h
    · next hg => cases h; exact .inl ⟨c, rfl, hg.1, hg.2, rfl⟩
    · cases h
  | sys b =>
    cases b with
    | command => cases h
    | _ => exact .inr ⟨_, rfl, step_move h⟩

/-- The call takes no semaphore of a side whose timer is linked. -/
def Instr.stopOk {σ : Type} (s : Sys σ) : Instr → Prop
  | .chBSemWait side => s.free side → .motor side ∉ DeltaList.keys s.vtlist
  | _ => True

instance {σ : Type} (s : Sys σ) : ∀ i : Instr, Decidable (i.stopOk s)
  | .chBSemWait side =>
    inferInstanceAs (Decidable (s.free side → .motor side ∉ DeltaList.keys s.vtlist))
  | .chVTSet _ _ | .chSysLock | .chSysUnlock | .chBSemSignalI _ | .pwmEnableChannelI _ _ =>
    .isTrue trivial

/-- The durations are in range, and no side is started while the timer of a run that was ended
early is still linked. -/
def StopOk (s : Sys Api) : ApiAct → Prop
  | .call c => c.InRange
  | .sys .thread => ∀ i ∈ s.thread.call, i.stopOk s
  | .sys (.chVTSetI _ time) => time ≠ 0
  | _ => True

instance (s : Sys Api) : ∀ a, Decidable (StopOk s a)
  | .call c => inferInstanceAs (Decidable c.InRange)
  | .sys .thread => inferInstanceAs (Decidable (∀ i ∈ s.thread.call, i.stopOk s))
  | .sys (.chVTSetI _ time) => inferInstanceAs (Decidable (time ≠ 0))
  | .sys (.command ..) | .sys (.ret _) | .sys .tick | .sys .isr | .sys (.chVTResetI _)
  | .sys (.motorSetSpeed _) => .isTrue trivial

/-- What the thread still has to run belongs to the function it called, whose duration is in
range. -/
def CodeOk : Thread Api → Prop
  | .run code c | .suspended _ code c => code <:+ c.code ∧ c.InRange
  | _ => True

/-- A timer is armed with as many ticks as the call has milliseconds. -/
theorem CodeOk.armed {th : Thread Api} (h : CodeOk th) {side : Side} {time : UInt32}
    {code : List Instr} {c : Api} (hth : th = .run (.chVTSet side time :: code) c) :
    ∃ milli, c.milli = some milli ∧ 1 ≤ milli ∧ (time.toNat : Int) = milli := by
  subst hth
  obtain ⟨hcode, hrange⟩ := h
  obtain ⟨milli, hm, rfl⟩ := Api.time_of_mem (hcode.subset List.mem_cons_self)
  obtain ⟨h1, h2⟩ := hrange milli hm
  exact ⟨milli, hm, h1, ms2st_toNat h1 h2⟩

theorem StopOk.arms {s : Sys Api} {a : Act} (h : StopOk s (.sys a)) (hc : CodeOk s.thread) :
    ArmsNonZero s a := by
  cases a with
  | thread =>
    unfold ArmsNonZero
    dsimp only
    split
    · next side time code x hth =>
      obtain ⟨milli, -, h1, htime⟩ := hc.armed hth
      rintro rfl
      have h0 : ((0 : UInt32).toNat : Int) = 0 := rfl
      omega
    · trivial
  | chVTSetI k time => exact h
  | _ => trivial

/-! ## Sides between two calls -/

section
variable {σ : Type} {ch : Channels} {cb : ProtocolCallback Op σ} {side : Side} {s t : Sys σ}
  {a : Act}

/-- The state with no timer linked. -/
def Sys.forget (s : Sys σ) : Sys σ := { s with vtlist := [] }

theorem Owned.forget (h : Owned ch side s .semaphore) : Owned ch side s.forget .semaphore :=
  h.congr (fun _ _ => rfl) rfl rfl h.linked.symm h.safe

theorem Owned.of_forget (h : Owned ch side s.forget .semaphore)
    (hl : (DeltaList.keys s.vtlist).count (.motor side) = 0) : Owned ch side s .semaphore :=
  h.congr (fun _ _ => rfl) rfl rfl hl h.safe

/-- The side between two calls that turn it off. -/
inductive Held (ch : Channels) (side : Side) (s : Sys σ) : Prop where
  | owned (o : Owner) : Owned ch side s o → Held ch side s
  /-- turned off, the timer of the run still linked -/
  | stale : Owned ch side s.forget .semaphore →
      (DeltaList.keys s.vtlist).count (.motor side) = 1 → Held ch side s
  /-- turned off, the function of that timer running -/
  | expiring (code : List Instr) : s.isr = .callback code → code <:+ vtfunc side →
      Owned ch side { s with isr := .callback [] } .semaphore → Held ch side s

/-- The calls of a function that turns the side off change nothing on a free side. -/
theorem Owned.off_call (h : Owned ch side s .semaphore) {i : Instr} (hi : i ∈ vtfunc side) :
    Owned ch side (s.execute ch i) .semaphore := by
  have h1 : s.ccr (ch.value side.pin1) = 0 := h.output1
  have h2 : s.ccr (ch.value side.pin2) = 0 := h.output2
  have hcnt : (s.sem side).cnt = 1 := h.cnt
  have hpwm : ∀ pin, pin = side.pin1 ∨ pin = side.pin2 →
      Owned ch side (s.execute ch (.pwmEnableChannelI pin .off)) .semaphore := by
    intro pin hpin
    have h0 : s.ccr (ch.value pin) = 0 := by rcases hpin with rfl | rfl <;> assumption
    have hccr : (s.execute ch (.pwmEnableChannelI pin .off)).ccr = s.ccr := by
      have hw : s.width .off = 0 := rfl
      rw [Sys.execute, hw, ← h0, Function.update_eq_self]
    exact h.congr (fun _ _ => by rw [hccr]) rfl rfl rfl h.safe
  have hmem : i ∈ motor_off side := by cases side <;> exact hi
  simp only [motor_off, List.mem_cons, List.not_mem_nil, or_false] at hmem
  rcases hmem with rfl | rfl | rfl | rfl | rfl
  · exact h.congr (fun _ _ => rfl) rfl rfl rfl h.safe
  · exact hpwm _ (.inl rfl)
  · exact hpwm _ (.inr rfl)
  · have hsem : (s.sem side).chBSemSignalI = (s.sem side, false) := by
      rw [BinarySemaphore.chBSemSignalI, if_neg (by omega)]
    refine h.congr (fun _ _ => rfl) ?_ ?_ rfl fun r => ?_
    · simp only [Sys.execute, hsem, Function.update_self]
    · simp only [Sys.execute, hsem, Bool.false_eq_true, ↓reduceIte]
    · have hcode : (s.execute ch (.chBSemSignalI side)).code r = s.code r := by
        cases r <;> simp only [Sys.execute, hsem, Sys.code, Bool.false_eq_true, ↓reduceIte]
      rw [hcode]
      exact h.safe r
  · exact h.congr (fun _ _ => rfl) rfl rfl rfl h.safe

/-- The moves that concern the linked timers. -/
inductive OnList (side : Side) (s t : Sys σ) : Prop where
  | expire (side' : Side) (l : VTList Vt) : s.isr = .sweep → s.vtlist = (.motor side', 0) :: l →
      t = { s with vtlist := l, locked := false, isr := .callback (vtfunc side') } →
      OnList side s t
  | expireOther (k : Nat) (l : VTList Vt) : s.isr = .sweep → s.vtlist = (.other k, 0) :: l →
      t = { s with vtlist := l, locked := false, isr := .callback [] } → OnList side s t
  | other (l : VTList Vt) : t = { s with vtlist := l } →
      (DeltaList.keys l).count (.motor side) = (DeltaList.keys s.vtlist).count (.motor side) →
      OnList side s t

theorem Sys.Move.forget (hm : Sys.Move ch cb s a t) (hlist : ¬ OnList side s t) :
    ∃ t', Sys.Move ch cb s.forget a t' ∧ t'.forget = t.forget := by
  cases hm with
  | expire side' l hi h => exact absurd (.expire side' l hi h rfl) hlist
  | expireOther k l hi h => exact absurd (.expireOther k l hi h rfl) hlist
  | setOther k time =>
    refine absurd (.other _ rfl ?_) hlist
    rw [VTList.chVTSetI, (DeltaList.keys_insert ..).count_eq, List.count_cons_of_ne (by simp)]
  | resetOther k =>
    refine absurd (.other _ rfl ?_) hlist
    rw [VTList.keys_chVTResetI, List.count_erase_of_ne (by simp)]
  | command id args hi hth => exact ⟨_, .command id args hi hth, rfl⟩
  | ret r x x' hi hth hx => exact ⟨_, .ret r x x' hi hth hx, rfl⟩
  | finish x m hi hth hr => exact ⟨_, .finish x m hi hth hr, rfl⟩
  | leftActive x hi hth hr hl => exact ⟨_, .leftActive x hi hth hr hl, rfl⟩
  | leftInactive x hi hth hr hl => exact ⟨_, .leftInactive x hi hth hr hl, rfl⟩
  | rightActive x hi hth => exact ⟨_, .rightActive x hi hth, rfl⟩
  | enter x op code hi hth hr hc => exact ⟨_, .enter x op code hi hth hr hc, rfl⟩
  | leave x hi hth => exact ⟨_, .leave x hi hth, rfl⟩
  | take side' code x hi hth hc => exact ⟨_, .take side' code x hi hth hc, rfl⟩
  | suspend side' code x hi hth hc => exact ⟨_, .suspend side' code x hi hth hc, rfl⟩
  | threadCall i code x hi hth hw => exact ⟨_, .threadCall i code x hi hth hw, by cases i <;> rfl⟩
  | isrCall i code hi hw => exact ⟨_, .isrCall i code hi hw, by cases i <;> rfl⟩
  | tick hi hl => exact ⟨_, .tick hi hl, rfl⟩
  | sweepEnd hi _ => exact ⟨_, .sweepEnd hi rfl, rfl⟩
  | callbackEnd hi => exact ⟨_, .callbackEnd hi, rfl⟩
  | setSpeed v hl h1 h2 => exact ⟨_, .setSpeed v hl h1 h2, rfl⟩
  | sameSpeed v hl => exact ⟨_, .sameSpeed v hl, rfl⟩

/-- How often the side's timer is linked, when its owner is not the one that moves. -/
theorem count_of_move (hthread : Safe side none s.thread.code) (hisr : Safe side none s.isr.code)
    (hm : Sys.Move ch cb s a t) (hl : ¬ OnList side s t) :
    (DeltaList.keys t.vtlist).count (.motor side) =
      (DeltaList.keys s.vtlist).count (.motor side) := by
  have hcall : ∀ (s : Sys σ) (i : Instr) (code : List Instr), Safe side none (i :: code) →
      (DeltaList.keys (s.execute ch i).vtlist).count (.motor side) =
        (DeltaList.keys s.vtlist).count (.motor side) := by
    intro s i code hsafe
    obtain ⟨v, hv, -⟩ := hsafe.cons
    cases i with
    | chVTSet side' time =>
      have hside : side' ≠ side := by
        rintro rfl
        simp [Instr.view] at hv
      rw [Sys.execute, VTList.chVTSetI, (DeltaList.keys_insert ..).count_eq,
        List.count_cons_of_ne (by simpa using hside)]
    | _ => rfl
  cases hm with
  | threadCall i code x _ hth => rw [hth] at hthread; exact hcall _ i code hthread
  | isrCall i code hi => rw [hi] at hisr; exact hcall _ i code hisr
  | tick => rw [VTList.keys_decrement]
  | expire side' l hi h => exact absurd (.expire side' l hi h rfl) hl
  | expireOther k l hi h => exact absurd (.expireOther k l hi h rfl) hl
  | setOther k time =>
    rw [VTList.chVTSetI, (DeltaList.keys_insert ..).count_eq, List.count_cons_of_ne (by simp)]
  | resetOther k => rw [VTList.keys_chVTResetI, List.count_erase_of_ne (by simp)]
  | _ => rfl

/-- A step of a state whose side was turned off before its timer expired. -/
theorem stale_step (h : Owned ch side s.forget .semaphore)
    (hcount : (DeltaList.keys s.vtlist).count (.motor side) = 1) (hs : s.SpeedOk)
    (hm : Sys.Move ch cb s a t)
    (hok : a = .thread → s.thread.call = some (.chBSemWait side) → s.free side →
      .motor side ∉ DeltaList.keys s.vtlist) : Held ch side t := by
  have hfree : s.free side := by
    have hcnt : (s.sem side).cnt = 1 := h.cnt
    rw [Sys.free_iff]
    omega
  by_cases hl : OnList side s t
  · cases hl with
    | expire side' l hi hlist he =>
      subst he
      by_cases hside : side' = side
      · subst hside
        rw [hlist, DeltaList.keys_cons, List.count_cons_self, Nat.add_eq_right] at hcount
        refine .expiring _ rfl List.suffix_rfl ?_
        exact h.congr (fun _ _ => rfl) rfl rfl hcount fun r => by
          cases r with
          | thread => exact h.safe .thread
          | isr => exact safe_nil side'
      · refine .stale ?_ ?_
        · exact h.congr (fun _ _ => rfl) rfl rfl rfl fun r => by
            cases r with
            | thread => exact h.safe .thread
            | isr => exact safe_vtfunc_of_ne hside
        · rwa [hlist, DeltaList.keys_cons, List.count_cons_of_ne (by simpa using hside)] at hcount
    | expireOther k l hi hlist he =>
      subst he
      refine .stale ?_ ?_
      · exact h.congr (fun _ _ => rfl) rfl rfl rfl fun r => by
          cases r with
          | thread => exact h.safe .thread
          | isr => exact safe_nil side
      · rwa [hlist, DeltaList.keys_cons, List.count_cons_of_ne (by simp)] at hcount
    | other l he hl => subst he; exact .stale h (hl.trans hcount)
  · -- nobody takes the free semaphore, so its owner stays
    obtain ⟨t', hm', ht⟩ := hm.forget hl
    obtain ⟨o, ho⟩ := step_owned h hs hm'
    have hwait : a = .thread → s.thread.call ≠ some (.chBSemWait side) := fun ha hcall =>
      hok ha hcall hfree (List.count_pos_iff.1 (hcount ▸ Nat.one_pos))
    obtain rfl := ho.free (Sys.free_iff.1 (free_of_move (s := s.forget) hfree hm' hwait))
    exact .stale (ht ▸ ho.forget)
      ((count_of_move (s := s) (h.safe .thread) (h.safe .isr) hm hl).trans hcount)

/-- A step of a state in which the timer of a side turned off before is expiring. -/
theorem expiring_step {code : List Instr} (hi : s.isr = .callback code)
    (hcode : code <:+ vtfunc side) (h : Owned ch side { s with isr := .callback [] } .semaphore)
    (hm : Sys.Move ch cb s a t) :
    Held ch side t := by
  cases hm with
  | isrCall i code' hi' hw =>
    rw [hi, Isr.callback.injEq] at hi'
    subst hi'
    refine .expiring code' (execute_isr _ i) ((List.suffix_cons i code').trans hcode) ?_
    have hcall := h.off_call (hcode.subset List.mem_cons_self)
    have he : { Sys.execute ch { s with isr := .callback code' } i with isr := .callback [] } =
        Sys.execute ch { s with isr := .callback [] } i := by cases i <;> rfl
    rw [he]
    exact hcall
  | callbackEnd =>
    exact .owned .semaphore (h.handler rfl rfl rfl)
  | setOther k time =>
    refine .expiring code hi hcode (h.congr (fun _ _ => rfl) rfl rfl ?_ h.safe)
    rw [VTList.chVTSetI, (DeltaList.keys_insert ..).count_eq, List.count_cons_of_ne (by simp)]
  | resetOther k =>
    refine .expiring code hi hcode (h.congr (fun _ _ => rfl) rfl rfl ?_ h.safe)
    rw [VTList.keys_chVTResetI, List.count_erase_of_ne (by simp)]
  | setSpeed | sameSpeed =>
    exact .expiring code hi hcode (h.congr (fun _ _ => rfl) rfl rfl rfl h.safe)
  | tick hi' | sweepEnd hi' | expire _ _ hi' | expireOther _ _ hi' => rw [hi] at hi'; cases hi'
  | command _ _ hi' | ret _ _ _ hi' | finish _ _ hi' | leftActive _ hi' | leftInactive _ hi'
  | rightActive _ hi' | enter _ _ _ hi' | leave _ hi' | take _ _ _ hi' | suspend _ _ _ hi'
  | threadCall _ _ _ hi' => rw [hi] at hi'; cases hi'

theorem Held.step (h : Held ch side s) (hs : s.SpeedOk) (hm : Sys.Move ch cb s a t)
    (hok : a = .thread → s.thread.call = some (.chBSemWait side) → s.free side →
      .motor side ∉ DeltaList.keys s.vtlist) : Held ch side t := by
  cases h with
  | owned o ho =>
    obtain ⟨o', ho'⟩ := step_owned ho hs hm
    exact .owned o' ho'
  | stale hf hcount => exact stale_step hf hcount hs hm hok
  | expiring code hi hcode hf => exact expiring_step hi hcode hf hm

/-- The thread starts a function that does not turn the side off. -/
theorem Held.call (h : Held ch side s) (hi : s.isr = .idle) (hth : s.thread = .idle) {x : σ}
    {code : List Instr} (hcode : Safe side none code) :
    Held ch side { s with thread := .run code x } := by
  have hc : s.thread.code = [] := by rw [hth]; rfl
  have hw : s.thread.waitsFor side = false := by rw [hth]; rfl
  cases h with
  | owned o ho => exact .owned o (ho.quiet hc hw hcode rfl)
  | stale hf hcount => exact .stale (hf.quiet hc hw hcode rfl) hcount
  | expiring code' hi' => rw [hi] at hi'; cases hi'

/-! ## Sides being turned off -/

/-- The calls in the lock zone of a function that turns the side off. -/
def zone (side : Side) : List Instr :=
  [.pwmEnableChannelI side.pin1 .off, .pwmEnableChannelI side.pin2 .off, .chBSemSignalI side]

/-- The state with no timer linked and the side's semaphore taken. -/
def Sys.claim (side : Side) (s : Sys σ) : Sys σ :=
  { s with vtlist := [], sem := Function.update s.sem side ⟨0⟩ }

/-- The thread is in the lock zone of a function that turns the side off. Whoever
owned the side before, it is now the thread that does. -/
structure Stopping (ch : Channels) (side : Side) (s : Sys σ) : Prop where
  isr : s.isr = .idle
  locked : s.locked = true
  code : ∃ rest post x, rest <:+ zone side ∧ rest ≠ [] ∧
    s.thread = .run (rest ++ .chSysUnlock :: post) x
  sem : s.sem side = ⟨0⟩ ∨ s.sem side = ⟨1⟩
  linked : (DeltaList.keys s.vtlist).count (.motor side) ≤ 1
  owned : ∃ d, Owned ch side (s.claim side) (.role .thread d)

/-- The thread is going to turn the side off, after these calls. -/
structure Pending (ch : Channels) (side : Side) (s : Sys σ) (pre post : List Instr) (x : σ) :
    Prop where
  code : s.thread = .run (pre ++ (motor_off side ++ post)) x
  suffix : ∃ side', pre <:+ vtfunc side'
  safe : Safe side none post
  held : Held ch side { s with thread := .run pre x }

/-- The side, whatever function the thread runs. -/
inductive Tracked (ch : Channels) (side : Side) (s : Sys σ) : Prop where
  | held : Held ch side s → Tracked ch side s
  | pending (pre post : List Instr) (x : σ) : Pending ch side s pre post x → Tracked ch side s
  | stopping : Stopping ch side s → Tracked ch side s

theorem zone_cases {rest : List Instr} (h : rest <:+ zone side) (hne : rest ≠ []) :
    ∃ i rest', rest = i :: rest' ∧ rest' <:+ zone side ∧ i.isWait = false ∧
      i.view side none = none ∧
      (rest' = [] → i = .chBSemSignalI side) ∧
      (rest' ≠ [] → ∃ pin, i = .pwmEnableChannelI pin .off) := by
  have hpin := side.pin_ne
  simp only [zone, List.suffix_cons_iff, List.suffix_nil] at h
  rcases h with rfl | rfl | rfl | rfl
  · exact ⟨_, _, rfl, List.suffix_cons _ _, rfl, by simp [Instr.view], by simp, fun _ => ⟨_, rfl⟩⟩
  · exact ⟨_, _, rfl, (List.suffix_cons _ _).trans (List.suffix_cons _ _), rfl,
      by simp [Instr.view], by simp, fun _ => ⟨_, rfl⟩⟩
  · exact ⟨_, _, rfl, List.nil_suffix, rfl, by simp [Instr.view], fun _ => rfl, by simp⟩
  · exact absurd rfl hne

/-- The side is off and free when its semaphore has been signalled. -/
theorem Stopping.step (h : Stopping ch side s) (hs : s.SpeedOk) (hm : Sys.Move ch cb s a t) :
    Tracked ch side t := by
  obtain ⟨rest, post, x, hrest, hne, hth⟩ := h.code
  obtain ⟨i, rest', rfl, hrest', hw, hview, hlast, hpwm⟩ := zone_cases hrest hne
  have hi := h.isr
  have hlocked := h.locked
  cases hm with
  | threadCall i' code x' _ hth' hw' =>
    rw [hth, List.cons_append, Thread.run.injEq, List.cons.injEq] at hth'
    obtain ⟨⟨rfl, rfl⟩, rfl⟩ := hth'
    obtain ⟨d, ho⟩ := h.owned
    have hm : Sys.Move ch cb (s.claim side) .thread _ := .threadCall i _ x hi hth hw
    obtain ⟨o, ho'⟩ := step_owned ho hs hm
    by_cases hr : rest' = []
    · -- the signal frees the semaphore if it was taken
      subst hr
      obtain rfl := hlast rfl
      have hsem : (s.sem side).chBSemSignalI = (⟨1⟩, false) := by
        rcases h.sem with hc | hc <;> rw [hc] <;> rfl
      have hfree : Owned ch side (Sys.execute ch { s with
          thread := .run (.chSysUnlock :: post) x } (.chBSemSignalI side)).forget .semaphore := by
        have hclaim : ((s.claim side).sem side).chBSemSignalI = (⟨1⟩, false) := by
          simp [Sys.claim, BinarySemaphore.chBSemSignalI]
        obtain rfl := ho'.free (by simp [Sys.execute, hclaim])
        refine ho'.congr (fun _ _ => rfl) ?_ ?_ rfl fun r => ?_
        · simp [Sys.forget, Sys.execute, hsem, hclaim]
        · simp [Sys.forget, Sys.execute, hsem, hclaim]
        · have hsafe := ho'.safe r
          cases r with
          | thread =>
            rw [Sys.code, execute_thread (fun _ => rfl)] at hsafe
            rw [Sys.code, show ∀ u : Sys σ, u.forget.thread = u.thread from fun _ => rfl,
              execute_thread (fun _ => rfl)]
            exact hsafe
          | isr => exact hsafe
      rcases Nat.le_one_iff_eq_zero_or_eq_one.1 h.linked with h0 | h1
      · exact .held (.owned _ (hfree.of_forget h0))
      · exact .held (.stale hfree h1)
    · obtain ⟨pin, rfl⟩ := hpwm hr
      obtain ⟨i, rest, rfl, -, -, hview, -⟩ := zone_cases hrest' hr
      refine .stopping ⟨hi, hlocked, ⟨_, post, x, hrest', hr, rfl⟩, h.sem, h.linked, ?_⟩
      have hsafe := ho'.safe .thread
      cases hv : o.view .thread with
      | some d => exact ⟨d, Owner.view_eq_some.1 hv ▸ ho'⟩
      | none =>
        rw [hv] at hsafe
        obtain ⟨v, hv', -⟩ := Safe.cons hsafe
        rw [hview] at hv'
        cases hv'
  | tick _ hl | setOther _ _ hl | resetOther _ hl | setSpeed _ hl | sameSpeed _ hl =>
    rw [hlocked] at hl; cases hl
  | sweepEnd hi' | expire _ _ hi' | expireOther _ _ hi' | callbackEnd hi' | isrCall _ _ hi' =>
    rw [hi] at hi'; cases hi'
  | take side' code x' _ hth' | suspend side' code x' _ hth' =>
    rw [hth, List.cons_append, Thread.run.injEq, List.cons.injEq] at hth'
    obtain ⟨⟨rfl, -⟩, -⟩ := hth'
    cases hw
  | command _ _ _ hth' | ret _ _ _ _ hth' | finish _ _ _ hth' | leftActive _ _ hth'
  | leftInactive _ _ hth' | rightActive _ _ hth' | enter _ _ _ _ hth' | leave _ _ hth' =>
    rw [hth] at hth'; cases hth'

/-- The thread enters the lock zone: a side between two calls becomes its own. -/
theorem Held.lock (h : Held ch side s) (hi : s.isr = .idle) {x : σ} (hth : s.thread = .run [] x)
    {post : List Instr} (hpost : Safe side none post) :
    Stopping ch side
      { s with locked := true, thread := .run (zone side ++ .chSysUnlock :: post) x } := by
  have hw : s.thread.waitsFor side = false := by rw [hth]; rfl
  have hcode : ∀ r, s.code r = [] := by
    intro r
    cases r
    · rw [Sys.code, hth]; rfl
    · rw [Sys.code, hi]; rfl
  -- the outputs are those of the semaphore or of the timer
  have key : ∀ {l : VTList Vt} {o : Owner}, Owned ch side { s with vtlist := l } o →
      ∃ d, Owned ch side (Sys.claim side { s with
        locked := true
        thread := .run (zone side ++ .chSysUnlock :: post) x }) (.role .thread d) := by
    intro l o ho
    refine ⟨o.duties, ?_, fun _ => by simp, rfl, fun r => ?_, ho.output1, ho.output2, ho.oneOff,
      fun h => by cases h⟩
    · simp [Sys.claim, Thread.waitsFor]
    · cases r with
      | isr => rw [Sys.code, Sys.claim, hi]; exact safe_nil side
      | thread =>
        have hoff : Safe side (some o.duties) (motor_off side) := by
          cases side <;> exact safe_vtfunc _ _
        exact hoff.append hpost
  have hcnt : ∀ {l : VTList Vt} {o : Owner}, Owned ch side { s with vtlist := l } o →
      s.sem side = ⟨0⟩ ∨ s.sem side = ⟨1⟩ := by
    intro l o ho
    have hc : (s.sem side).cnt = if o = .semaphore then 1 else 0 := by
      simpa [hw] using ho.cnt
    split at hc
    · exact .inr (BinarySemaphore.mk.injEq _ _ ▸ hc)
    · exact .inl (BinarySemaphore.mk.injEq _ _ ▸ hc)
  cases h with
  | owned o ho =>
    refine ⟨hi, rfl, ⟨_, post, x, List.suffix_rfl, by simp [zone], rfl⟩, hcnt ho, ?_, key ho⟩
    exact ho.linked.trans_le (by split <;> simp)
  | stale hf hcount =>
    exact ⟨hi, rfl, ⟨_, post, x, List.suffix_rfl, by simp [zone], rfl⟩, hcnt hf, hcount.le, key hf⟩
  | expiring code hi' => rw [hi] at hi'; cases hi'

/-- What a call does apart from the thread, it does whoever that is, if it does not
wait. -/
theorem execute_withThread {th : Thread σ} (hth : ∀ side, th.waitsFor side = false)
    (s : Sys σ) (i : Instr) :
    ({ s with thread := th } : Sys σ).execute ch i = { s.execute ch i with thread := th } := by
  cases i with
  | chBSemSignalI side =>
    have h2 : th.ready side = th := by
      cases th with
      | suspended side' code x => simpa [Thread.waitsFor] using hth side'
      | _ => rfl
    simp only [Sys.execute, h2, ite_self]
  | _ => rfl

/-- What a party other than the thread does, it does whatever the thread has to run. -/
theorem Sys.Move.otherCode (hm : Sys.Move ch cb s a t) {code : List Instr} {x : σ}
    (hth : s.thread = .run code x) (ha : a ≠ .thread) (code' : List Instr) :
    t.thread = s.thread ∧
      Sys.Move ch cb { s with thread := .run code' x } a { t with thread := .run code' x } := by
  cases hm with
  | isrCall i c hi hw =>
    refine ⟨execute_thread (fun side => by rw [hth]; rfl) i, ?_⟩
    have hm' : Sys.Move ch cb { s with thread := .run code' x } .isr _ := .isrCall i c hi hw
    rwa [execute_withThread (fun _ => rfl) { s with isr := .callback c }] at hm'
  | tick hi hl => exact ⟨rfl, .tick hi hl⟩
  | sweepEnd hi he => exact ⟨rfl, .sweepEnd hi he⟩
  | callbackEnd hi => exact ⟨rfl, .callbackEnd hi⟩
  | expire side' l hi hl => exact ⟨rfl, .expire side' l hi hl⟩
  | expireOther k l hi hl => exact ⟨rfl, .expireOther k l hi hl⟩
  | setOther k time hl hk => exact ⟨rfl, .setOther k time hl hk⟩
  | resetOther k hl hk => exact ⟨rfl, .resetOther k hl hk⟩
  | setSpeed v hl h1 h2 => exact ⟨rfl, .setSpeed v hl h1 h2⟩
  | sameSpeed v hl => exact ⟨rfl, .sameSpeed v hl⟩
  | command _ _ _ hth' | ret _ _ _ _ hth' => rw [hth] at hth'; cases hth'
  | _ => exact absurd rfl ha

theorem Pending.step {pre post : List Instr} {x : σ} (h : Pending ch side s pre post x)
    (hs : s.SpeedOk) (hm : Sys.Move ch cb s a t) : Tracked ch side t := by
  have hth := h.code
  by_cases ha : a = .thread
  · subst ha
    have hhead : ∀ {i code x'}, s.thread = .run (i :: code) x' → i.isWait = false := by
      intro i code x' hth'
      rw [hth] at hth'
      cases pre with
      | nil => cases hth'; rfl
      | cons i' pre =>
        cases hth'
        obtain ⟨side', hs'⟩ := h.suffix
        exact (vtfunc_calls (hs'.subset List.mem_cons_self)).1
    cases hm with
    | threadCall i code x' hi hth' hw =>
      rw [hth] at hth'
      cases pre with
      | nil => cases hth'; exact .stopping (h.held.lock hi rfl h.safe)
      | cons i' pre =>
        cases hth'
        refine .pending pre post x ⟨execute_thread (fun _ => rfl) i,
          h.suffix.imp fun _ => (List.suffix_cons i pre).trans, h.safe, ?_⟩
        have hm' : Sys.Move ch cb { s with thread := .run (i :: pre) x } .thread _ :=
          .threadCall i pre x hi rfl hw
        have hheld := h.held.step hs hm' fun _ hcall => by
          obtain rfl := Option.some.inj hcall
          cases hw
        rwa [execute_withThread (fun _ => rfl)
          { s with thread := .run (pre ++ (motor_off side ++ post)) x }] at hheld
    | take side' code x' _ hth' | suspend side' code x' _ hth' => cases hhead hth'
    | leave x' _ hth' =>
      rw [hth] at hth'
      cases pre <;> cases hth'
    | finish _ _ _ hth' | leftActive _ _ hth' | leftInactive _ _ hth' | rightActive _ _ hth'
    | enter _ _ _ _ hth' => rw [hth] at hth'; cases hth'
  · obtain ⟨he, hm'⟩ := hm.otherCode hth ha pre
    refine .pending pre post x ⟨he.trans hth, h.suffix, h.safe, ?_⟩
    exact h.held.step hs hm' fun h => absurd h ha

theorem Tracked.step (h : Tracked ch side s) (hs : s.SpeedOk) (hm : Sys.Move ch cb s a t)
    (hok : a = .thread → s.thread.call = some (.chBSemWait side) → s.free side →
      .motor side ∉ DeltaList.keys s.vtlist) : Tracked ch side t := by
  cases h with
  | held hh => exact .held (hh.step hs hm hok)
  | pending pre post x hp => exact hp.step hs hm
  | stopping hst => exact hst.step hs hm

theorem Tracked.owned (h : Tracked ch side s) {time : UInt32} {code : List Instr} {x : σ}
    (hth : s.thread = .run (.chVTSet side time :: code) x) : ∃ o, Owned ch side s o := by
  have hunsafe : ¬ Safe side none (.chVTSet side time :: code) := by
    intro hsafe
    obtain ⟨v, hv, -⟩ := hsafe.cons
    simp [Instr.view] at hv
  have hnone : ∀ {s' : Sys σ}, Owned ch side s' .semaphore → s'.thread = s.thread → False := by
    intro s' ho he
    have hsafe := ho.safe .thread
    rw [Sys.code, he, hth] at hsafe
    exact hunsafe hsafe
  cases h with
  | held hh =>
    cases hh with
    | owned o ho => exact ⟨o, ho⟩
    | stale hf => exact (hnone hf rfl).elim
    | expiring _ _ _ hf => exact (hnone hf rfl).elim
  | pending pre post x' hp =>
    have hcode := hp.code
    rw [hth] at hcode
    cases pre with
    | nil => cases hcode
    | cons i pre =>
      cases hcode
      obtain ⟨side', hs'⟩ := hp.suffix
      exact absurd rfl ((vtfunc_calls (hs'.subset List.mem_cons_self)).2 side time)
  | stopping hst =>
    obtain ⟨rest, post, x', hrest, hne, hcode⟩ := hst.code
    obtain ⟨i, rest', rfl, -, -, -, h1, h2⟩ := zone_cases hrest hne
    rw [hth] at hcode
    cases hcode
    by_cases hr : rest' = []
    · cases h1 hr
    · obtain ⟨pin, hp⟩ := h2 hr
      cases hp

end

/-! ## Runs -/

section
variable {ch : Channels} {side : Side} {s t : Sys Api}

theorem CodeOk.ready {th : Thread Api} (h : CodeOk th) (side : Side) : CodeOk (th.ready side) := by
  cases th with
  | suspended side' code c =>
    by_cases hs : side' = side
    · rw [Thread.ready, if_pos hs]
      exact h
    · rw [Thread.ready, if_neg hs]
      exact h
  | _ => exact h

theorem CodeOk.step {a : Act} (h : CodeOk s.thread) (hm : Sys.Move ch apiCallback s a t) :
    CodeOk t.thread := by
  cases hm with
  | threadCall i code c _ hth =>
    rw [hth] at h
    rw [execute_thread (fun _ => rfl)]
    exact ⟨(List.suffix_cons i code).trans h.1, h.2⟩
  | take side' code c _ hth | suspend side' code c _ hth =>
    rw [hth] at h
    exact ⟨(List.suffix_cons _ code).trans h.1, h.2⟩
  | isrCall i code =>
    cases i with
    | chBSemSignalI side' =>
      simp only [Sys.execute]
      split
      · exact h.ready side'
      · exact h
    | _ => exact h
  | enter c op code _ _ hr => cases hr
  | command | ret | finish | leftActive | leftInactive | rightActive | leave => trivial
  | _ => exact h

/-- Each timer is linked once, if the thread arms only timers that are not. -/
theorem nodup_step {σ : Type} {cb : ProtocolCallback Op σ} {s t : Sys σ} {a : Act}
    (h : (DeltaList.keys s.vtlist).Nodup) (hh : HandlerOk s)
    (harm : ∀ side time code x, s.thread = .run (.chVTSet side time :: code) x →
      .motor side ∉ DeltaList.keys s.vtlist) (hm : Sys.Move ch cb s a t) :
    (DeltaList.keys t.vtlist).Nodup := by
  have hinsert : ∀ {vtp time}, vtp ∉ DeltaList.keys s.vtlist →
      (DeltaList.keys (s.vtlist.chVTSetI vtp time)).Nodup := by
    intro vtp time hn
    exact (DeltaList.keys_insert ..).nodup_iff.2 (List.nodup_cons.2 ⟨hn, h⟩)
  cases hm with
  | threadCall i code x _ hth =>
    cases i with
    | chVTSet side time => exact hinsert (harm side time code x hth)
    | _ => exact h
  | isrCall i code hi =>
    rw [execute_vtlist _ (hh.calls hi).2.1]
    exact h
  | setOther k time _ hk => exact hinsert hk
  | resetOther k => rw [VTList.keys_chVTResetI]; exact h.erase _
  | tick => rw [VTList.keys_decrement]; exact h
  | expire _ l _ hl | expireOther _ l _ hl =>
    rw [hl, DeltaList.keys_cons] at h
    exact (List.nodup_cons.1 h).2
  | _ => exact h

/-- What the proof follows along a run. -/
structure ApiOk (ch : Channels) (s : Sys Api) : Prop where
  speed : s.SpeedOk
  list : ListOk s
  handler : HandlerOk s
  nodup : (DeltaList.keys s.vtlist).Nodup
  tracked : ∀ side, Tracked ch side s
  code : CodeOk s.thread

theorem ApiOk.unlinked (h : ApiOk ch s) (side : Side) (time : UInt32) (code : List Instr) (c : Api)
    (hth : s.thread = .run (.chVTSet side time :: code) c) :
    .motor side ∉ DeltaList.keys s.vtlist := by
  obtain ⟨o, ho⟩ := (h.tracked side).owned hth
  obtain ⟨d, rfl, -⟩ := ho.arming hth
  rw [ho.linked_iff]
  simp [Owner.isTimer]

theorem ApiOk.step {a : ApiAct} (h : ApiOk ch s) (hc : StopOk s a) (hst : s.apiStep ch a = some t) :
    ApiOk ch t := by
  obtain ⟨c, rfl, hi, hth, rfl⟩ | ⟨b, rfl, hm⟩ := Sys.apiStep_cases hst
  · refine ⟨h.speed, ⟨h.list.fits, h.list.early⟩, h.handler, h.nodup, fun side => ?_,
      ⟨List.suffix_rfl, hc⟩⟩
    have hheld : Held ch side s := by
      cases h.tracked side with
      | held hh => exact hh
      | pending pre post x hp =>
        have hcode := hp.code
        rw [hth] at hcode
        cases hcode
      | stopping hs =>
        obtain ⟨rest, post, x, -, -, hcode⟩ := hs.code
        rw [hth] at hcode
        cases hcode
    cases hstops : c.stops side with
    | false => exact .held (hheld.call hi hth (Api.safe_code hstops))
    | true =>
      obtain ⟨pre, post, hcode, hpre, hpost, hsuffix⟩ := Api.code_of_stops hstops
      exact .pending pre post c ⟨by rw [hcode], hsuffix, hpost, hheld.call hi hth hpre⟩
  · refine ⟨step_speed h.speed hm, step_listOk h.list (hc.arms h.code) hm, step_handlerOk h.handler hm,
      nodup_step h.nodup h.handler h.unlinked hm, fun side => ?_, h.code.step hm⟩
    refine (h.tracked side).step h.speed hm ?_
    rintro rfl hcall
    exact hc (.chBSemWait side) hcall

theorem reach_apiOk {ccr : Nat → Nat} (h : Reach (Sys.apiStep ch) StopOk (Sys.init ch ccr) s) :
    ApiOk ch s := by
  refine h.inv ⟨⟨Nat.le_of_ble_eq_true rfl, Nat.le_of_ble_eq_true rfl⟩,
    ⟨Nat.two_pow_pos 32, fun _ p hp => (by cases hp)⟩, ⟨.left, List.nil_suffix⟩, List.nodup_nil,
    fun side => .held (.owned _ (init_owned ch side ccr)), trivial⟩ fun s a t hi hc hs => ?_
  exact hi.step hc hs

/-! ## What a run does to a side that is not turned off -/

/-- The ticks of a label. -/
def ApiAct.ticks : ApiAct → Nat
  | .call _ => 0
  | .sys a => a.ticks

/-- The ticks of a run. -/
def apiTicks (as : List ApiAct) : Nat := (as.map ApiAct.ticks).sum

/-- The side is not turned off. -/
def ApiAct.goesOn (side : Side) : ApiAct → Prop
  | .call c => c.stops side = false
  | .sys _ => True

theorem Good.call {n k : Nat} {s₀ : Sys Api} {c : Api}
    (h : Good ch side s ∧ Phase ch side n s₀ k s) (hi : s.isr = .idle) (hth : s.thread = .idle)
    (hc : c.stops side = false) :
    Good ch side { s with thread := .run c.code c } ∧
      Phase ch side n s₀ k { s with thread := .run c.code c } := by
  obtain ⟨hg, hp⟩ := h
  obtain ⟨o, ho⟩ := hg.owned
  have hcode : s.thread.code = [] := by rw [hth]; rfl
  have hw : s.thread.waitsFor side = false := by rw [hth]; rfl
  refine ⟨⟨hg.speed, ⟨o, ho.quiet hcode hw (Api.safe_code hc) rfl⟩, ⟨hg.list.fits, hg.list.early⟩,
    hg.handler⟩, fun hk => ?_, fun _ hne => absurd hi hne⟩
  obtain ⟨htime, hu⟩ := hp.before hk
  exact ⟨htime, hu.output1, hu.output2, hu.signals⟩

theorem Good.apiRun {n k : Nat} {s₀ : Sys Api} {as : List ApiAct} (hcode : CodeOk s.thread)
    (h : Good ch side s ∧ Phase ch side n s₀ k s) (hs : Steps (Sys.apiStep ch) StopOk s as t)
    (has : ∀ a ∈ as, a.goesOn side) :
    Good ch side t ∧ Phase ch side n s₀ (k + apiTicks as) t := by
  refine ((hs.labels has).inv_weight (I := fun k s =>
    (Good ch side s ∧ Phase ch side n s₀ k s) ∧ CodeOk s.thread) ApiAct.ticks
    (fun k s a t hi hc hst => ?_) ⟨h, hcode⟩).1
  obtain ⟨hi, hcode⟩ := hi
  obtain ⟨c, rfl, hidle, hth, rfl⟩ | ⟨b, rfl, hm⟩ := Sys.apiStep_cases hst
  · exact ⟨Good.call hi hidle hth hc.2, List.suffix_rfl, hc.1⟩
  · obtain ⟨o, ho⟩ := hi.1.owned
    exact ⟨⟨hi.1.step (hc.1.arms hcode) hm, step_phase hi.2 ho hi.1.list hm⟩, hcode.step hm⟩

/-- A run of the side from `s₀` on lasts `n` ticks as long as nobody turns it off: the
outputs stay as they are until the last tick, whose handler stops the side. -/
def Lasts (ch : Channels) (side : Side) (n : Nat) (s₀ : Sys Api) : Prop :=
  OneOn ch side s₀ ∧ ∀ as t, Steps (Sys.apiStep ch) StopOk s₀ as t → (∀ a ∈ as, a.goesOn side) →
    (apiTicks as < n → Unchanged ch side s₀ t) ∧
    (apiTicks as = n → t.isr ≠ .idle →
      (∀ u, t.apiStep ch (.sys .isr) = some u → u.isr = .idle → Stopped ch side s₀ u) ∧
      ∃ m u, Steps (Sys.apiStep ch) StopOk t (List.replicate m (.sys .isr)) u ∧ u.isr = .idle ∧
        Stopped ch side s₀ u)

theorem Good.lasts {n : Nat} {s₀ : Sys Api} (hg₀ : Good ch side s₀) (hcode : CodeOk s₀.thread)
    (hone : OneOn ch side s₀) (hp₀ : Phase ch side n s₀ 0 s₀) : Lasts ch side n s₀ := by
  refine ⟨hone, fun as t hs has => ?_⟩
  obtain ⟨hg, hp⟩ := Good.apiRun hcode ⟨hg₀, hp₀⟩ hs has
  rw [Nat.zero_add] at hp
  refine ⟨fun hk => (hp.before hk).unchanged, fun hk hi => ?_⟩
  rw [hk] at hp
  obtain ⟨hstops, m, u, hsteps, hu, hstopped⟩ := hg.stops ch apiCallback hp hi
  refine ⟨hstops, m, u, ?_, hu, hstopped⟩
  have hisr := hsteps.labels (P := (· = .isr)) fun a ha => List.eq_of_mem_replicate ha
  rw [← List.map_replicate]
  refine hisr.map ApiAct.sys fun s a t hc hst => ?_
  obtain ⟨-, rfl⟩ := hc
  exact ⟨hst, trivial⟩

end

/-- **Stopping a motor is complete** in every run in which the durations are in range and no side is
started while the timer of a run that was ended early is still linked: the timer of a side is armed
only when it is not linked, and the run of the side lasts as many ticks as milliseconds were
asked for. -/
theorem stop_complete (ch : Channels) (ccr : Nat → Nat) {s : Sys Api}
    (h : Reach (Sys.apiStep ch) StopOk (Sys.init ch ccr) s) :
    (DeltaList.keys s.vtlist).Nodup ∧ ListOk s ∧
    ∀ side time code c, s.thread = .run (.chVTSet side time :: code) c →
      .motor side ∉ DeltaList.keys s.vtlist ∧ ∃ milli, c.milli = some milli ∧
        (time.toNat : Int) = milli ∧
        ∀ s₀, s.apiStep ch (.sys .thread) = some s₀ → Lasts ch side milli.toNat s₀ := by
  have hok := reach_apiOk h
  refine ⟨hok.nodup, hok.list, fun side time code c hth =>
    ⟨hok.unlinked side time code c hth, ?_⟩⟩
  obtain ⟨milli, hm, h1, htime⟩ := hok.code.armed hth
  refine ⟨milli, hm, htime, fun s₀ h₀ => ?_⟩
  have hg : Good ch side s := ⟨hok.speed, (hok.tracked side).owned hth, hok.list, hok.handler⟩
  have hst : s.step ch apiCallback .thread = some s₀ := h₀
  have hne : time ≠ 0 := by
    rintro rfl
    have h0 : ((0 : UInt32).toNat : Int) = 0 := rfl
    omega
  obtain ⟨hg₀, hone, hp₀⟩ := hg.armed hth hne hst
  have hlasts := hg₀.lasts (hok.code.step (Sys.step_move hst)) hone hp₀
  rwa [show milli.toNat = time.toNat by omega]

/-- Once the timer of the run that was ended has expired, a run of three milliseconds lasts
three ticks. -/
theorem stop_complete_after_expiry :
    ∃ s s₀, Reach (Sys.apiStep mainChannels) StopOk (Sys.init mainChannels fun _ => 0) s ∧
      s.thread = .run [.chVTSet .left 3] (.motorLeftForwardS 3) ∧
      s.apiStep mainChannels (.sys .thread) = some s₀ ∧ Lasts mainChannels .left 3 s₀ := by
  obtain ⟨s, hr, hp⟩ := reach_of_exec (Sys.apiStep mainChannels) StopOk
    (Sys.init mainChannels fun _ => 0)
    (script [(1, .call (.motorLeftForwardS 2)), (8, .sys .thread), (1, .call .motorLeftOff),
      (7, .sys .thread), (1, .sys .tick), (1, .sys .isr), (1, .sys .tick), (8, .sys .isr),
      (1, .call (.motorLeftForwardS 3)), (5, .sys .thread)])
    (fun s => decide (s.thread = .run [.chVTSet .left 3] (.motorLeftForwardS 3)) &&
      (s.apiStep mainChannels (.sys .thread)).isSome) (by decide +kernel)
  rw [Bool.and_eq_true, decide_eq_true_eq] at hp
  obtain ⟨s₀, h₀⟩ := Option.isSome_iff_exists.1 hp.2
  obtain ⟨-, milli, hm, -, hlasts⟩ := (stop_complete mainChannels _ hr).2.2 .left 3 [] _ hp.1
  cases hm
  exact ⟨s, s₀, hr, hp.1, h₀, hlasts s₀ h₀⟩

/-- A run of two seconds is turned off and the side started again: its timer is armed
while it is linked. -/
theorem arms_linked_timer :
    ∃ s, Reach (Sys.apiStep mainChannels) Always (Sys.init mainChannels fun _ => 0) s ∧
      s.thread = .run [.chVTSet .left 1000] (.motorLeftForwardS 1000) ∧
      .motor .left ∈ DeltaList.keys s.vtlist := by
  obtain ⟨s, hr, hp⟩ := reach_of_exec (Sys.apiStep mainChannels) Always
    (Sys.init mainChannels fun _ => 0)
    (script [(1, .call (.motorLeftForwardS 2000)), (8, .sys .thread), (1, .call .motorLeftOff),
      (7, .sys .thread), (1, .call (.motorLeftForwardS 1000)), (5, .sys .thread)])
    (fun s => decide (s.thread = .run [.chVTSet .left 1000] (.motorLeftForwardS 1000) ∧
      .motor .left ∈ DeltaList.keys s.vtlist)) (by decide +kernel)
  exact ⟨s, hr, of_decide_eq_true hp⟩

end RobotPws.Motor
