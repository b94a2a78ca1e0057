import RobotPws.Motor.Safety

/-!
# A started motor stops on time

The timer of a side that has been armed with `n` ticks, as long as no timer is
armed with zero ticks. Until the `n`-th tick it is in the timer list with the
ticks that are left (`Counting`), and nobody else touches the outputs; in the
handler of the `n`-th tick it is first due, then its function runs (`Popped`),
then the side is `Released`. `step_phase` is the step lemma, `motor_on_time` the
result on runs.
-/

namespace RobotPws.Motor

open RobotPws.Lib RobotPws.Kernel RobotPws.Wifly RobotPws.Main

variable {σ : Type} {ch : Channels} {cb : ProtocolCallback Op σ} {side : Side} {s t : Sys σ}
  {o : Owner} {a : Act}

/-- No timer is armed with zero ticks. -/
def ArmsNonZero (s : Sys σ) : Act → Prop
  | .thread =>
    match s.thread with
    | .run (.chVTSet _ time :: _) _ => time ≠ 0
    | _ => True
  | .chVTSetI _ time => time ≠ 0
  | _ => True

instance (s : Sys σ) : ∀ a, Decidable (ArmsNonZero s a)
  | .thread => by unfold ArmsNonZero; dsimp only; split <;> infer_instance
  | .chVTSetI _ time => inferInstanceAs (Decidable (time ≠ 0))
  | .command .. | .ret _ | .tick | .isr | .chVTResetI _ | .motorSetSpeed _ => .isTrue trivial

/-! ## The timer list -/

/-- Between two ticks the first timer is not due, and no time wraps around. -/
structure ListOk (s : Sys σ) : Prop where
  fits : s.vtlist.Fits
  early : s.isr = .idle → DeltaList.Early s.vtlist

theorem ListOk.chVTSetI (h : ListOk s) (vtp : Vt) {time : UInt32} (ht : time ≠ 0) :
    (s.vtlist.chVTSetI vtp time).Fits ∧
      (s.isr = .idle → DeltaList.Early (s.vtlist.chVTSetI vtp time)) := by
  refine ⟨h.fits.set time, fun hi => (h.early hi).insert ?_⟩
  exact Nat.pos_of_ne_zero fun h0 => ht (UInt32.toNat_inj.1 h0)

theorem execute_isr (s : Sys σ) (i : Instr) : (s.execute ch i).isr = s.isr := by
  cases i <;> rfl

theorem execute_vtlist (s : Sys σ) {i : Instr} (h : ∀ side time, i ≠ .chVTSet side time) :
    (s.execute ch i).vtlist = s.vtlist := by
  cases i with
  | chVTSet side time => exact absurd rfl (h side time)
  | _ => rfl

theorem execute_signals (s : Sys σ) {i : Instr} (h : i ≠ .chBSemSignalI side) :
    (s.execute ch i).signals side = s.signals side := by
  cases i with
  | chBSemSignalI side' =>
    exact Function.update_of_ne (fun he => h (by rw [he])) _ _
  | _ => rfl

theorem step_listOk (h : ListOk s) (hc : ArmsNonZero s a) (hm : Sys.Move ch cb s a t) :
    ListOk t := by
  cases hm with
  | threadCall i code x hi hth =>
    cases i with
    | chVTSet side time =>
      rw [ArmsNonZero, hth] at hc
      obtain ⟨hf, he⟩ := h.chVTSetI (.motor side) hc
      exact ⟨hf, he⟩
    | _ => exact ⟨h.fits, h.early⟩
  | isrCall i code hi _ =>
    refine ⟨?_, fun hidle => ?_⟩
    · cases i with
      | chVTSet side time => exact h.fits.set time
      | _ => exact h.fits
    · rw [execute_isr] at hidle
      cases hidle
  | tick hi _ =>
    refine ⟨?_, fun hidle => (by cases hidle)⟩
    rw [VTList.decrement_eq (h.early hi) h.fits]
    exact Nat.lt_of_le_of_lt (DeltaList.total_tick_le _) h.fits
  | sweepEnd hi he => exact ⟨h.fits, fun _ => VTList.early_of_expired he⟩
  | callbackEnd hi => exact ⟨h.fits, fun hidle => (by cases hidle)⟩
  | expire _ l hi hl | expireOther _ l hi hl =>
    refine ⟨?_, fun hidle => (by cases hidle)⟩
    have hf := h.fits
    rw [hl, VTList.Fits, DeltaList.total_cons, Nat.zero_add] at hf
    exact hf
  | setOther k time =>
    obtain ⟨hf, he⟩ := h.chVTSetI (.other k) hc
    exact ⟨hf, he⟩
  | resetOther k =>
    refine ⟨?_, fun hidle => ?_⟩
    · rw [VTList.chVTResetI_eq h.fits]
      exact Nat.lt_of_le_of_lt (DeltaList.total_remove_le _ _) h.fits
    · rw [VTList.chVTResetI_eq h.fits]
      exact (h.early hidle).remove
  | _ => exact ⟨h.fits, h.early⟩

/-! ## The handler -/

/-- The handler runs the rest of one of the two functions. -/
def HandlerOk (s : Sys σ) : Prop := ∃ side, s.isr.code <:+ vtfunc side

theorem vtfunc_calls {i : Instr} (h : i ∈ vtfunc side) :
    i.isWait = false ∧ ∀ side' time, i ≠ .chVTSet side' time := by
  cases side <;>
    (simp only [vtfunc, motor_left_off, motor_right_off, motor_off, List.mem_cons,
      List.not_mem_nil, or_false] at h
     rcases h with rfl | rfl | rfl | rfl | rfl <;> simp [Instr.isWait])

theorem HandlerOk.calls (h : HandlerOk s) {i : Instr} {code : List Instr}
    (hi : s.isr = .callback (i :: code)) :
    i.isWait = false ∧ (∀ side' time, i ≠ .chVTSet side' time) ∧
      ∃ side, code <:+ vtfunc side := by
  obtain ⟨side, hs⟩ := h
  rw [hi] at hs
  obtain ⟨h1, h2⟩ := vtfunc_calls (hs.subset (List.mem_cons_self ..))
  exact ⟨h1, h2, side, (List.suffix_cons i code).trans hs⟩

theorem step_handlerOk (h : HandlerOk s) (hm : Sys.Move ch cb s a t) : HandlerOk t := by
  cases hm with
  | threadCall i => rw [HandlerOk, execute_isr]; exact h
  | isrCall i code hi _ =>
    rw [HandlerOk, execute_isr]
    exact (h.calls hi).2.2
  | expire side l => exact ⟨side, List.suffix_rfl⟩
  | tick | sweepEnd | callbackEnd | expireOther => exact ⟨.left, List.nil_suffix⟩
  | _ => exact h

/-- A bound for the steps the handler still makes when it is left alone. -/
def Sys.handlerWork (s : Sys σ) : Nat :=
  7 * s.vtlist.length +
    match s.isr with
    | .callback code => code.length + 1
    | _ => 0

theorem handler_step (ch : Channels) (cb : ProtocolCallback Op σ) (h : HandlerOk s)
    (hi : s.isr ≠ .idle) :
    ∃ t, s.step ch cb .isr = some t ∧ (t.isr = .idle ∨ t.handlerWork < s.handlerWork) := by
  cases hisr : s.isr with
  | idle => exact absurd hisr hi
  | sweep =>
    cases he : s.vtlist.expired with
    | none =>
      exact ⟨{ s with locked := false, isr := .idle },
        by simp only [Sys.step, Sys.isrStep, hisr, he], .inl rfl⟩
    | some p =>
      obtain ⟨vt, l⟩ := p
      have hl := VTList.expired_eq_some.1 he
      cases vt with
      | motor side =>
        refine ⟨{ s with vtlist := l, locked := false, isr := .callback (vtfunc side) },
          by simp only [Sys.step, Sys.isrStep, hisr, he], .inr ?_⟩
        have h5 : (vtfunc side).length = 5 := by cases side <;> rfl
        simp only [Sys.handlerWork, hisr, hl, List.length_cons, h5]
        omega
      | other k =>
        refine ⟨{ s with vtlist := l, locked := false, isr := .callback [] },
          by simp only [Sys.step, Sys.isrStep, hisr, he], .inr ?_⟩
        simp only [Sys.handlerWork, hisr, hl, List.length_cons, List.length_nil]
        omega
  | callback code =>
    cases code with
    | nil =>
      refine ⟨{ s with locked := true, isr := .sweep },
        by simp only [Sys.step, Sys.isrStep, hisr], .inr ?_⟩
      simp [Sys.handlerWork, hisr]
    | cons i code =>
      obtain ⟨hwait, hset, -⟩ := h.calls hisr
      refine ⟨Sys.execute ch { s with isr := .callback code } i, ?_, .inr ?_⟩
      · cases i with
        | chBSemWait => cases hwait
        | _ => simp only [Sys.step, Sys.isrStep, hisr]
      · simp only [Sys.handlerWork, execute_isr, execute_vtlist _ hset, hisr, List.length_cons]
        omega

/-- Left alone, the handler returns. -/
theorem handler_returns (ch : Channels) (cb : ProtocolCallback Op σ) (h : HandlerOk s)
    (hi : s.isr ≠ .idle) :
    ∃ m u v, Steps (Sys.step ch cb) ArmsNonZero s (List.replicate m .isr) u ∧ u.isr ≠ .idle ∧
      u.step ch cb .isr = some v ∧ v.isr = .idle := by
  induction hn : s.handlerWork using Nat.strong_induction_on generalizing s with
  | _ n ih =>
    obtain ⟨t, hs, ht⟩ := handler_step ch cb h hi
    by_cases hidle : t.isr = .idle
    · exact ⟨0, s, t, .refl s, hi, hs, hidle⟩
    · obtain ⟨m, u, v, hsteps, hrest⟩ := ih t.handlerWork (hn ▸ ht.resolve_left hidle)
        (step_handlerOk h (Sys.step_move hs)) hidle rfl
      exact ⟨m + 1, u, v, .cons hs trivial hsteps, hrest⟩

/-! ## What others leave alone -/

/-- The side is as in `s₀`. -/
structure Unchanged (ch : Channels) (side : Side) (s₀ s : Sys σ) : Prop where
  output1 : s.ccr (ch.value side.pin1) = s₀.ccr (ch.value side.pin1)
  output2 : s.ccr (ch.value side.pin2) = s₀.ccr (ch.value side.pin2)
  signals : s.signals side = s₀.signals side

theorem Unchanged.trans {s₀ : Sys σ} (h : Unchanged ch side s₀ s) (h' : Unchanged ch side s t) :
    Unchanged ch side s₀ t :=
  ⟨h'.output1.trans h.output1, h'.output2.trans h.output2, h'.signals.trans h.signals⟩

theorem execute_frame {i : Instr} {v : View} (hi : i.isWait = false)
    (hv : i.view side none = some v) (s : Sys σ) :
    v = none ∧ Unchanged ch side s (s.execute ch i) ∧
      DeltaList.timeLeft (s.execute ch i).vtlist (.motor side) =
        DeltaList.timeLeft s.vtlist (.motor side) := by
  cases i with
  | chSysLock | chSysUnlock => exact ⟨(Option.some.inj hv).symm, ⟨rfl, rfl, rfl⟩, rfl⟩
  | chBSemWait => cases hi
  | chBSemSignalI side' =>
    rw [Instr.view] at hv
    split at hv
    · simp at hv
    · next hside =>
      refine ⟨(Option.some.inj hv).symm, ⟨rfl, rfl, ?_⟩, rfl⟩
      simp only [Sys.execute, Function.update_of_ne (Ne.symm hside)]
  | pwmEnableChannelI pin duty =>
    rw [Instr.view] at hv
    split at hv
    · simp at hv
    · next h1 =>
      split at hv
      · simp at hv
      · next h2 =>
        exact ⟨(Option.some.inj hv).symm, ⟨update_value h1 _, update_value h2 _, rfl⟩, rfl⟩
  | chVTSet side' time =>
    rw [Instr.view] at hv
    split at hv
    · simp at hv
    · next hside =>
      refine ⟨(Option.some.inj hv).symm, ⟨rfl, rfl, rfl⟩, ?_⟩
      exact DeltaList.timeLeft_insert_of_ne (by simpa using Ne.symm hside) _

/-- The tick handler takes the side's timer, which has expired, off the list. -/
def Pops (side : Side) (s t : Sys σ) : Prop :=
  ∃ l, s.isr = .sweep ∧ s.vtlist = (.motor side, 0) :: l ∧
    t = { s with vtlist := l, locked := false, isr := .callback (vtfunc side) }

/-- A step between two ticks that the owner of the side does not make. -/
theorem move_frame (hl : ListOk s) (hthread : s.isr = .idle → Safe side none s.thread.code)
    (hisr : Safe side none s.isr.code) (hm : Sys.Move ch cb s a t) (ha : a ≠ .tick)
    (hpop : ¬ Pops side s t) :
    Unchanged ch side s t ∧ DeltaList.timeLeft t.vtlist (.motor side) =
      DeltaList.timeLeft s.vtlist (.motor side) ∧ Safe side none t.isr.code := by
  cases hm with
  | threadCall i code x hi hth hw =>
    have hcode := hthread hi
    rw [hth] at hcode
    obtain ⟨v, hv, -⟩ := hcode.cons
    obtain ⟨-, hu, htime⟩ := execute_frame hw hv { s with thread := .run code x }
    exact ⟨⟨hu.output1, hu.output2, hu.signals⟩, htime, by rw [execute_isr]; exact hisr⟩
  | isrCall i code hi hw =>
    rw [hi] at hisr
    obtain ⟨v, hv, hcode⟩ := hisr.cons
    obtain ⟨rfl, hu, htime⟩ := execute_frame hw hv { s with isr := .callback code }
    exact ⟨⟨hu.output1, hu.output2, hu.signals⟩, htime, by rw [execute_isr]; exact hcode⟩
  | tick => exact absurd rfl ha
  | expire side' l hi hlist =>
    have hside : side' ≠ side := by
      rintro rfl
      exact hpop ⟨l, hi, hlist, rfl⟩
    refine ⟨⟨rfl, rfl, rfl⟩, ?_, safe_vtfunc_of_ne hside⟩
    rw [hlist, DeltaList.timeLeft_pop (by simpa using hside)]
  | expireOther k l hi hlist =>
    refine ⟨⟨rfl, rfl, rfl⟩, ?_, safe_nil side⟩
    rw [hlist, DeltaList.timeLeft_pop (by simp)]
  | sweepEnd | callbackEnd => exact ⟨⟨rfl, rfl, rfl⟩, rfl, safe_nil side⟩
  | setOther k time =>
    exact ⟨⟨rfl, rfl, rfl⟩, DeltaList.timeLeft_insert_of_ne (by simp) _, hisr⟩
  | resetOther k =>
    refine ⟨⟨rfl, rfl, rfl⟩, ?_, hisr⟩
    rw [VTList.chVTResetI_eq hl.fits, DeltaList.timeLeft_remove (by simp)]
  | _ => exact ⟨⟨rfl, rfl, rfl⟩, rfl, hisr⟩

/-! ## The phases of a run -/

/-- The timer is linked with `k` ticks left. -/
structure Counting (ch : Channels) (side : Side) (s₀ : Sys σ) (k : Nat) (s : Sys σ) : Prop where
  timeLeft : DeltaList.timeLeft s.vtlist (.motor side) = some k
  unchanged : Unchanged ch side s₀ s

/-- The handler runs the function of the timer, the signal is still to come. -/
structure Popped (side : Side) (s₀ s : Sys σ) : Prop where
  code : ∃ code, s.isr = .callback code ∧ code <:+ vtfunc side ∧ .chBSemSignalI side ∈ code
  signals : s.signals side = s₀.signals side

/-- The outputs are off and the semaphore has been signalled. -/
structure Released (ch : Channels) (side : Side) (s₀ s : Sys σ) : Prop where
  output1 : s.ccr (ch.value side.pin1) = 0
  output2 : s.ccr (ch.value side.pin2) = 0
  signals : s.signals side = s₀.signals side + 1
  unlinked : DeltaList.timeLeft s.vtlist (.motor side) = none
  code : Safe side none s.isr.code

/-- Where the side is after `k` of `n` ticks, up to the end of the handler of the
last one. -/
structure Phase (ch : Channels) (side : Side) (n : Nat) (s₀ : Sys σ) (k : Nat) (s : Sys σ) :
    Prop where
  before : k < n → Counting ch side s₀ (n - k) s
  last : k = n → s.isr ≠ .idle →
    Counting ch side s₀ 0 s ∨ Popped side s₀ s ∨ Released ch side s₀ s

/-- A linked timer owns its side. -/
theorem Owned.timer_of_linked (h : Owned ch side s o) {k : Nat}
    (hk : DeltaList.timeLeft s.vtlist (.motor side) = some k) : ∃ d, o = .timer d := by
  have hmem : .motor side ∈ DeltaList.keys s.vtlist := by
    by_contra hn
    rw [DeltaList.timeLeft_eq_none.2 hn] at hk
    cases hk
  have ht := h.linked_iff.1 hmem
  cases o with
  | timer d => exact ⟨d, rfl⟩
  | semaphore | role => cases ht

theorem Counting.step {s₀ : Sys σ} {k : Nat} (h : Counting ch side s₀ k s)
    (ho : Owned ch side s o) (hl : ListOk s) (hm : Sys.Move ch cb s a t) (ha : a ≠ .tick) :
    Counting ch side s₀ k t ∨ (k = 0 ∧ Popped side s₀ t) := by
  obtain ⟨d, rfl⟩ := ho.timer_of_linked h.timeLeft
  by_cases hpop : Pops side s t
  · obtain ⟨l, hi, hlist, rfl⟩ := hpop
    have hk := h.timeLeft
    rw [hlist, DeltaList.timeLeft, if_pos rfl, Option.some.injEq] at hk
    refine .inr ⟨hk.symm, ⟨vtfunc side, rfl, List.suffix_rfl, ?_⟩, h.unchanged.signals⟩
    cases side <;> decide
  · obtain ⟨hu, htime, -⟩ := move_frame hl (fun _ => ho.safe .thread) (ho.safe .isr) hm ha hpop
    exact .inl ⟨htime.trans h.timeLeft, h.unchanged.trans hu⟩

theorem Popped.step {s₀ : Sys σ} (h : Popped side s₀ s) (ho : Owned ch side s o)
    (hm : Sys.Move ch cb s a t) : Popped side s₀ t ∨ Released ch side s₀ t := by
  obtain ⟨code, hisr, hsuffix, hmem⟩ := h.code
  cases hm with
  | isrCall i code' hi hw =>
    rw [hisr, Isr.callback.injEq] at hi
    subst hi
    obtain ⟨-, hset⟩ := vtfunc_calls (hsuffix.subset (List.mem_cons_self ..))
    by_cases hsig : i = .chBSemSignalI side
    · -- the owner knows both outputs to be off
      subst hsig
      have hcode := ho.safe .isr
      rw [Sys.code, hisr] at hcode
      obtain ⟨v, hv, hcode⟩ := hcode.cons
      rw [Instr.view, if_pos rfl] at hv
      split at hv
      · next hview =>
        obtain rfl := Owner.view_eq_some.1 hview
        obtain rfl := Option.some.inj hv
        refine .inr ⟨ho.output1, ho.output2, ?_, ?_, hcode⟩
        · simp [Sys.execute, h.signals]
        · rw [execute_vtlist _ (by simp), DeltaList.timeLeft_eq_none, ho.linked_iff]
          simp [Owner.isTimer]
      · cases hv
    · refine .inl ⟨⟨code', by rw [execute_isr], (List.suffix_cons i code').trans hsuffix, ?_⟩, ?_⟩
      · exact (List.mem_cons.1 hmem).resolve_left (Ne.symm hsig)
      · exact (execute_signals _ hsig).trans h.signals
  | callbackEnd hi =>
    rw [hisr, Isr.callback.injEq] at hi
    subst hi
    cases hmem
  | setOther | resetOther | setSpeed | sameSpeed =>
    exact .inl ⟨⟨code, hisr, hsuffix, hmem⟩, h.signals⟩
  | tick hi | sweepEnd hi | expire _ _ hi | expireOther _ _ hi => rw [hisr] at hi; cases hi
  | command _ _ hi | ret _ _ _ hi | finish _ _ hi | leftActive _ hi | leftInactive _ hi
  | rightActive _ hi | enter _ _ _ hi | leave _ hi | take _ _ _ hi | suspend _ _ _ hi
  | threadCall _ _ _ hi => rw [hisr] at hi; cases hi

theorem Released.step {s₀ : Sys σ} (h : Released ch side s₀ s) (hl : ListOk s)
    (hi : s.isr ≠ .idle) (hm : Sys.Move ch cb s a t) (ha : a ≠ .tick) :
    Released ch side s₀ t := by
  have hpop : ¬ Pops side s t := by
    rintro ⟨l, -, hlist, -⟩
    have := h.unlinked
    rw [hlist, DeltaList.timeLeft, if_pos rfl] at this
    cases this
  obtain ⟨hu, htime, hcode⟩ := move_frame hl (fun hidle => absurd hidle hi) h.code hm ha hpop
  exact ⟨hu.output1.trans h.output1, hu.output2.trans h.output2, hu.signals.trans h.signals,
    htime.trans h.unlinked, hcode⟩

theorem isr_idle (hi : s.isr = .idle) (hm : Sys.Move ch cb s a t) (ha : a ≠ .tick) :
    t.isr = .idle := by
  cases hm with
  | threadCall i => rw [execute_isr]; exact hi
  | tick => exact absurd rfl ha
  | isrCall _ _ hisr | callbackEnd hisr | sweepEnd hisr | expire _ _ hisr | expireOther _ _ hisr =>
    exact absurd (hi.symm.trans hisr) (by simp)
  | _ => exact hi

/-- How many ticks a label stands for. -/
def Act.ticks : Act → Nat
  | .tick => 1
  | _ => 0

theorem Act.ticks_of_ne (ha : a ≠ .tick) : a.ticks = 0 := by
  cases a <;> first | rfl | exact absurd rfl ha

/-- The ticks of a run. -/
def ticks (as : List Act) : Nat := (as.map Act.ticks).sum

theorem step_phase {n k : Nat} {s₀ : Sys σ} (h : Phase ch side n s₀ k s) (ho : Owned ch side s o)
    (hl : ListOk s) (hm : Sys.Move ch cb s a t) : Phase ch side n s₀ (k + a.ticks) t := by
  by_cases ha : a = .tick
  · subst ha
    cases hm with
    | tick hi _ =>
      -- one tick less is left, also to a timer that is now due
      have hcount : k < n → Counting ch side s₀ (n - (k + 1))
          { s with vtlist := s.vtlist.decrement, locked := true, isr := .sweep } := by
        intro hk
        have hc := h.before hk
        refine ⟨?_, ⟨hc.unchanged.output1, hc.unchanged.output2, hc.unchanged.signals⟩⟩
        rw [VTList.decrement_eq (hl.early hi) hl.fits, DeltaList.timeLeft_tick (hl.early hi),
          hc.timeLeft, Option.map_some]
        rfl
      refine ⟨fun hk => hcount (by simp only [Act.ticks] at hk; omega), fun hk _ => .inl ?_⟩
      simp only [Act.ticks] at hk
      have := hcount (by omega)
      rwa [show n - (k + 1) = 0 by omega] at this
  · rw [Act.ticks_of_ne ha, Nat.add_zero]
    refine ⟨fun hk => ?_, fun hk ht => ?_⟩
    · rcases (h.before hk).step ho hl hm ha with hc | ⟨h0, -⟩
      · exact hc
      · omega
    · have hi : s.isr ≠ .idle := fun hi => ht (isr_idle hi hm ha)
      obtain hc | hp | hr := h.last hk hi
      · exact (hc.step ho hl hm ha).imp_right fun hp => .inl hp.2
      · exact .inr (hp.step ho hm)
      · exact .inr (.inr (hr.step hl hi hm ha))

theorem Phase.returned {n : Nat} {s₀ : Sys σ} (h : Phase ch side n s₀ n s)
    (ho : Owned ch side s o) (hl : ListOk s) (hi : s.isr ≠ .idle) (hm : Sys.Move ch cb s .isr t)
    (ht : t.isr = .idle) : Released ch side s₀ t := by
  have hc : ArmsNonZero s .isr := trivial
  have hlist := (step_listOk hl hc hm).early ht
  obtain hc | hp | hr := h.last rfl hi
  · rcases hc.step ho hl hm (by simp) with hc | ⟨-, hp⟩
    · -- a due timer would still be the first one
      exact absurd (hlist.timeLeft_pos hc.timeLeft) (Nat.lt_irrefl 0)
    · obtain ⟨code, hcode, -⟩ := hp.code
      rw [ht] at hcode
      cases hcode
  · rcases hp.step ho hm with hp | hr
    · obtain ⟨code, hcode, -⟩ := hp.code
      rw [ht] at hcode
      cases hcode
    · exact hr
  · exact hr.step hl hi hm (by simp)

/-! ## Runs -/

/-- What the proof follows along a run. -/
structure Good (ch : Channels) (side : Side) (s : Sys σ) : Prop where
  speed : s.SpeedOk
  owned : ∃ o, Owned ch side s o
  list : ListOk s
  handler : HandlerOk s

theorem Good.step (h : Good ch side s) (hc : ArmsNonZero s a) (hm : Sys.Move ch cb s a t) :
    Good ch side t := by
  obtain ⟨o, ho⟩ := h.owned
  exact ⟨step_speed h.speed hm, step_owned ho h.speed hm, step_listOk h.list hc hm,
    step_handlerOk h.handler hm⟩

/-- Exactly one output of the side is on. -/
def OneOn (ch : Channels) (side : Side) (s : Sys σ) : Prop :=
  (s.ccr (ch.value side.pin1) = 0 ∧ 0 < s.ccr (ch.value side.pin2)) ∨
    (0 < s.ccr (ch.value side.pin1) ∧ s.ccr (ch.value side.pin2) = 0)

/-- The outputs are off and the semaphore has been signalled once since `s₀`. -/
structure Stopped (ch : Channels) (side : Side) (s₀ s : Sys σ) : Prop where
  output1 : s.ccr (ch.value side.pin1) = 0
  output2 : s.ccr (ch.value side.pin2) = 0
  signals : s.signals side = s₀.signals side + 1

theorem Released.stopped {s₀ : Sys σ} (h : Released ch side s₀ s) : Stopped ch side s₀ s :=
  ⟨h.output1, h.output2, h.signals⟩

theorem Owned.oneOn {d : Duty × Duty} (h : Owned ch side s (.role .thread d)) (hd : d.1 ≠ d.2) :
    OneOn ch side s := by
  have h1 := h.output1
  have h2 := h.output2
  obtain ⟨d1, d2⟩ := d
  cases d1 <;> cases d2 <;> first | exact absurd rfl hd | exact .inl ⟨h1, h2⟩ | exact .inr ⟨h1, h2⟩

theorem Good.armed {s₀ : Sys σ} (h : Good ch side s) {time : UInt32} {code : List Instr} {x : σ}
    (hth : s.thread = .run (.chVTSet side time :: code) x) (htime : time ≠ 0)
    (h₀ : s.step ch cb .thread = some s₀) :
    Good ch side s₀ ∧ OneOn ch side s₀ ∧ Phase ch side time.toNat s₀ 0 s₀ := by
  have hc : ArmsNonZero s .thread := by rw [ArmsNonZero, hth]; exact htime
  have hg := h.step hc (Sys.step_move h₀)
  obtain ⟨o, ho⟩ := h.owned
  obtain ⟨d, rfl, hd⟩ := ho.arming hth
  have hunlinked : .motor side ∉ DeltaList.keys s.vtlist := by
    rw [ho.linked_iff]; simp [Owner.isTimer]
  simp only [Sys.step] at h₀
  split at h₀
  · simp only [Sys.threadStep, hth, Option.some.injEq] at h₀
    subst h₀
    refine ⟨hg, ho.oneOn hd, fun _ => ⟨?_, ⟨rfl, rfl, rfl⟩⟩, fun h0 _ => ?_⟩
    · exact DeltaList.timeLeft_insert_self hunlinked _
    · exact absurd (UInt32.toNat_inj.1 h0.symm) htime
  · cases h₀

theorem Good.run {n k : Nat} {s₀ : Sys σ} {as : List Act}
    (h : Good ch side s ∧ Phase ch side n s₀ k s) (hs : Steps (Sys.step ch cb) ArmsNonZero s as t) :
    Good ch side t ∧ Phase ch side n s₀ (k + ticks as) t := by
  refine hs.inv_weight (I := fun k s => Good ch side s ∧ Phase ch side n s₀ k s) Act.ticks
    (fun k s a t hi hc hst => ?_) h
  obtain ⟨o, ho⟩ := hi.1.owned
  have hm := Sys.step_move hst
  exact ⟨hi.1.step hc hm, step_phase hi.2 ho hi.1.list hm⟩

theorem Good.stops (ch : Channels) (cb : ProtocolCallback Op σ) {n : Nat} {s₀ : Sys σ}
    (hg : Good ch side s) (hp : Phase ch side n s₀ n s) (hi : s.isr ≠ .idle) :
    (∀ u, s.step ch cb .isr = some u → u.isr = .idle → Stopped ch side s₀ u) ∧
      ∃ m u, Steps (Sys.step ch cb) ArmsNonZero s (List.replicate m .isr) u ∧
        u.isr = .idle ∧ Stopped ch side s₀ u := by
  have hret : ∀ {s u : Sys σ}, Good ch side s → Phase ch side n s₀ n s → s.isr ≠ .idle →
      s.step ch cb .isr = some u → u.isr = .idle → Stopped ch side s₀ u := by
    intro s u hg hp hi hst hu
    obtain ⟨o, ho⟩ := hg.owned
    exact (hp.returned ho hg.list hi (Sys.step_move hst) hu).stopped
  refine ⟨fun u hst hu => hret hg hp hi hst hu, ?_⟩
  obtain ⟨m, u, v, hsteps, hu, hst, hv⟩ := handler_returns ch cb hg.handler hi
  obtain ⟨hg', hp'⟩ := Good.run ⟨hg, hp⟩ hsteps
  have hticks : ticks (List.replicate m .isr) = 0 := by simp [ticks, Act.ticks]
  rw [hticks, Nat.add_zero] at hp'
  refine ⟨m + 1, v, ?_, hv, hret hg' hp' hu hst hv⟩
  rw [List.replicate_succ']
  exact hsteps.snoc hst trivial

end RobotPws.Motor
