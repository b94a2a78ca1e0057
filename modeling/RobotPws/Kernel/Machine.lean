import RobotPws.Kernel.Sound
import RobotPws.Lib.Runs

/-!
# The steps of the kernel

Each step that is allowed can be made and keeps the invariant (`Inv.step`), from the end of
`chSysInit` on (`inv_chSysInit`); the whole runs are in `Safety`.
-/

namespace RobotPws.Kernel

open RobotPws.Lib Function

variable {n : Nat}

namespace Kern

variable {idle : Fin n} {k k' : Kern n} {t : Fin n} {qp : Nat} {msg : Int}

/-! ## Calls -/

theorem sound_call (h : Inv idle none none k) (hU : k.Unlocked) (hi : k.inIsr = false)
    (hne : k.currp ≠ idle) {c : Call n} (hc : k.CallOk c) : Sound idle k (k.call c) := by
  cases c with
  | semWait sp => exact sound_chSemWait h hU hi hne sp
  | semWaitTimeout sp time => exact sound_chSemWaitTimeout h hU hi hne sp time
  | semSignal sp => exact sound_chSemSignal h hi sp
  | semReset sp c => exact sound_chSemReset h hU hi sp c
  | semSignalWait sps spw => exact sound_chSemSignalWait h hU hi hne sps spw
  | mtxLock mp => exact sound_chMtxLock h hU hi hne mp
  | mtxTryLock mp => exact sound_chMtxTryLock h mp
  | mtxUnlock => exact sound_chMtxUnlock h hi hc
  | mtxUnlockAll => exact sound_chMtxUnlockAll h hU hi
  | msgSend tp msg => exact sound_chMsgSend h hU hi hne hc msg
  | msgWait => exact sound_chMsgWait h hU hi hne
  | msgRelease tp msg => exact sound_chMsgRelease h hi hc msg
  | evtWait mode mask => exact sound_chEvtWait h hU hi hne mode mask
  | evtWaitTimeout mode mask time => exact sound_chEvtWaitTimeout h hU hi hne mode mask time
  | evtGetAndClear mask => exact sound_chEvtGetAndClearEvents h mask
  | evtAdd mask => exact sound_chEvtAddEvents h mask
  | evtSignal tp mask => exact sound_chEvtSignal h hU hi tp mask
  | create tp prio => exact sound_chThdCreateStatic h hi hc.1 hc.2.1
  | sleep time => exact sound_chThdSleep h hU hi hne hc
  | yield => exact sound_chThdYield h hU hi
  | suspend => exact sound_suspend h hU hi hne
  | qwait qp time => exact sound_qwait h hU hi hne qp time

/-! ## The I class -/

theorem SoundI.refl (h : Inv idle none none k) : SoundI idle k (some k) :=
  ⟨k, rfl, h, rfl, rfl, rfl⟩

theorem SoundI.bind {r : Option (Kern n)} {f : Kern n → Option (Kern n)} (h : SoundI idle k r)
    (hf : ∀ k' ∈ r, Inv idle none none k' → SoundI idle k' (f k')) : SoundI idle k (r.bind f) := by
  obtain ⟨k₁, rfl, hI, h1, h2, h3⟩ := h
  obtain ⟨k₂, he, hI', h4, h5, h6⟩ := hf k₁ rfl hI
  exact ⟨k₂, he, hI', h4.trans h1, h5.trans h2, h6.trans h3⟩

theorem soundI_resumeI (h : Inv idle none none k) (ht : k.state t = .suspended) (msg : Int) :
    SoundI idle k (some (k.resumeI t msg)) := by
  have hI : Inv idle (some t) none k := h.free (by rw [ht]; rfl) (by rw [ht]; simp)
  exact ⟨_, rfl, hI.resumeI (by rw [ht]; trivial) msg, rfl, rfl, rfl⟩

theorem soundI_wakeFirstI (h : Inv idle none none k) (qp : Nat) (msg : Int) :
    SoundI idle k (some (k.wakeFirstI qp msg)) := by
  unfold wakeFirstI
  cases hf : k.fifo_remove (.io qp) with
  | none => exact .refl h
  | some p =>
    obtain ⟨tp, k₁⟩ := p
    obtain ⟨l, hq, rfl⟩ := fifo_remove_eq_some.1 hf
    obtain ⟨hI, hs⟩ := h.takeIo (l := l) (t := tp) (by rw [hq])
    have ha : ((k.setQueue (.io qp) l).state tp).Asleep := by
      rw [show (k.setQueue (.io qp) l).state tp = .wtqueue qp from hs]
      trivial
    exact ⟨_, rfl, hI.readyMsgI ha msg, rfl, rfl, rfl⟩

theorem soundI_iterate (m : Nat) (h : Inv idle none none k) :
    SoundI idle k (some ((wakeFirstI qp msg)^[m] k)) := by
  induction m generalizing k with
  | zero => exact .refl h
  | succ m ih =>
    exact (soundI_wakeFirstI h qp msg).bind (f := fun k => some ((wakeFirstI qp msg)^[m] k))
      fun _ _ hI => ih hI

theorem Inv.vtlist (h : Inv idle none none k) {l : VTList (Timer n)}
    (hW : Waits none { k with vtlist := l })
    (hE : DeltaList.Early k.vtlist → DeltaList.Early l) :
    Inv idle none none { k with vtlist := l } :=
  ⟨h.placed.congr rfl rfl rfl, h.sorted.congr rfl rfl, h.sems, h.mtxs.still rfl rfl rfl rfl rfl, hW,
    h.idle, fun hi => hE (h.early hi), h.isr⟩

theorem soundI_iop (h : Inv idle none none k) {op : IOp n} (hop : k.IOpOk op) :
    SoundI idle k (k.iop op) := by
  cases op with
  | semSignalI sp => exact soundI_chSemSignalI h sp
  | semResetI sp c => exact soundI_chSemResetI h sp c
  | evtSignalI tp mask => exact soundI_chEvtSignalI h tp mask
  | resumeI tp msg => exact soundI_resumeI h hop msg
  | notifyI qp => exact soundI_wakeFirstI h qp _
  | qResetI qp => exact soundI_iterate _ h
  | vtSetI vtp time =>
    refine ⟨_, rfl, h.vtlist (h.waits.vtSet hop.1 time) fun hE => hE.insert ?_, rfl, rfl, rfl⟩
    exact Nat.pos_of_ne_zero fun h0 => hop.2 (UInt32.toNat_inj.1 h0)
  | vtResetI vtp =>
    refine ⟨_, rfl, h.vtlist (h.waits.vtReset vtp) fun hE => ?_, rfl, rfl, rfl⟩
    rw [VTList.chVTResetI_eq h.waits.fits]
    exact hE.remove

theorem soundI_iops (h : Inv idle none none k) {ops : List (IOp n)} (hops : k.IOpsOk ops) :
    SoundI idle k (k.iops ops) := by
  induction ops generalizing k with
  | nil => exact .refl h
  | cons op ops ih => exact (soundI_iop h hops.1).bind fun k' he hI => ih hI (hops.2 k' he)

/-- An interrupt handler is entered while no thread is in the kernel. -/
theorem Inv.enterIsr (h : Inv idle none none k) (hU : k.Unlocked) :
    Inv idle none none { k with inIsr := true } :=
  ⟨h.placed.congr rfl rfl rfl, h.sorted.congr rfl rfl, h.sems, h.mtxs.still rfl rfl rfl rfl rfl,
    h.waits.congr rfl rfl rfl rfl fun _ => rfl, h.idle, fun hi => (nomatch hi), fun _ => hU⟩

/-! ## The tick -/

theorem inv_chSysTimerHandlerI (h : Inv idle none none k) (hU : k.Unlocked)
    (he : k.vtlist.expired = none) :
    Inv idle none none { k.chSysTimerHandlerI with inIsr := true } := by
  have hW := h.waits.tick he
  exact ⟨h.placed.congr rfl rfl rfl, h.sorted.congr rfl rfl, h.sems,
    h.mtxs.still rfl rfl rfl rfl rfl, hW.congr rfl rfl rfl rfl fun _ => rfl, h.idle,
    fun hi => (nomatch hi), fun _ => hU⟩

/-- A timer that has expired is a sign that an interrupt handler has not been left. -/
theorem Inv.inIsr_of_expired (h : Inv idle none none k) {x : Timer n} {l : VTList (Timer n)}
    (he : k.vtlist = (x, 0) :: l) : k.inIsr = true := by
  cases hi : k.inIsr with
  | true => rfl
  | false =>
    have hE := h.early hi
    rw [he] at hE
    exact absurd (hE (x, 0) rfl) (Nat.lt_irrefl 0)

/-- A thread that waits for a limited time is taken out of the queue it is in. -/
theorem wakeup_eq (h : Inv idle none none k) (ha : (k.state t).Limited) (l : VTList (Timer n)) :
    ∃ k₁, { k with vtlist := l }.wakeup t = { k₁ with vtlist := l }.resumeI t RDY_TIMEOUT ∧
      Inv idle (some t) none k₁ ∧ (k₁.state t).Asleep ∧ k₁.vtlist = k.vtlist ∧
      k₁.inIsr = k.inIsr ∧ k₁.currp = k.currp ∧ k₁.cont = k.cont := by
  have hdeq : ∀ {q}, (k.state t).queue = some q →
      (k.queue q).Perm (t :: (k.queue q).erase t) ∧ ∀ k₁ : Kern n, k₁.state t = k.state t →
        k₁.queue = k.queue → k₁.dequeue t = k₁.setQueue q ((k.queue q).erase t) := by
    intro q hq
    refine ⟨List.perm_cons_erase (h.placed.mem_iff.2 hq), fun k₁ hs hqs => ?_⟩
    unfold dequeue
    rw [hs, hq, hqs]
  have hfree : (k.state t).queue = none → (k.state t).Asleep →
      { k with vtlist := l }.wakeup t = { k with vtlist := l }.resumeI t RDY_TIMEOUT →
      ∃ k₁, { k with vtlist := l }.wakeup t = { k₁ with vtlist := l }.resumeI t RDY_TIMEOUT ∧
        Inv idle (some t) none k₁ ∧ (k₁.state t).Asleep ∧ k₁.vtlist = k.vtlist ∧
        k₁.inIsr = k.inIsr ∧ k₁.currp = k.currp ∧ k₁.cont = k.cont := fun hq hs he =>
    ⟨k, he, h.free hq (fun mp hm => by rw [hm] at hq; cases hq), hs, rfl, rfl, rfl, rfl⟩
  cases hs : k.state t with
  | wtsem sp =>
    obtain ⟨hp, hd⟩ := hdeq (q := .sem sp) (by rw [hs]; rfl)
    obtain ⟨hI, -⟩ := h.takeSem hp
    refine ⟨_, ?_, hI, show (k.state t).Asleep by rw [hs]; trivial, rfl, rfl, rfl, rfl⟩
    unfold wakeup
    rw [show ({ k with vtlist := l } : Kern n).state t = .wtsem sp from hs]
    dsimp only
    rw [hd (({ k with vtlist := l } : Kern n).setCnt sp (k.cnt sp + 1)) rfl rfl]
    rfl
  | wtqueue qp =>
    obtain ⟨hp, hd⟩ := hdeq (q := .io qp) (by rw [hs]; rfl)
    obtain ⟨hI, -⟩ := h.takeIo hp
    refine ⟨_, ?_, hI, show (k.state t).Asleep by rw [hs]; trivial, rfl, rfl, rfl, rfl⟩
    unfold wakeup
    rw [show ({ k with vtlist := l } : Kern n).state t = .wtqueue qp from hs]
    dsimp only
    rw [hd { k with vtlist := l } rfl rfl]
    rfl
  | sleeping =>
    refine hfree (by rw [hs]; rfl) (by rw [hs]; trivial) ?_
    unfold wakeup
    rw [show ({ k with vtlist := l } : Kern n).state t = .sleeping from hs]
    rfl
  | wtorevt m =>
    refine hfree (by rw [hs]; rfl) (by rw [hs]; trivial) ?_
    unfold wakeup
    rw [show ({ k with vtlist := l } : Kern n).state t = .wtorevt m from hs]
    rfl
  | wtandevt m =>
    refine hfree (by rw [hs]; rfl) (by rw [hs]; trivial) ?_
    unfold wakeup
    rw [show ({ k with vtlist := l } : Kern n).state t = .wtandevt m from hs]
    rfl
  | _ => rw [hs] at ha; exact ha.elim

theorem inv_expire_thread (h : Inv idle none none k) (hU : k.Unlocked) {l : VTList (Timer n)}
    (he : k.vtlist = (.thread t, 0) :: l) :
    Inv idle none none ({ k with vtlist := l }.wakeup t) := by
  have hin := h.inIsr_of_expired he
  have hm : .thread t ∈ DeltaList.keys k.vtlist := by
    rw [he, DeltaList.keys_cons]; exact List.mem_cons_self
  obtain ⟨⟨rest, hc⟩, hs⟩ := h.waits.armed t hm
  rcases hs with (hs | hs) | hs
  · -- the thread has been made ready, but its timer has not been reset
    have hw : { k with vtlist := l }.wakeup t = { k with vtlist := l } := by
      unfold wakeup
      rw [show ({ k with vtlist := l } : Kern n).state t = .ready from hs]
    rw [hw]
    exact ⟨h.placed.congr rfl rfl rfl, h.sorted.congr rfl rfl, h.sems,
      h.mtxs.still rfl rfl rfl rfl rfl, h.waits.popReady he (.inl hs), h.idle,
      (fun hi => by rw [show k.inIsr = false from hi] at hin; cases hin), h.isr⟩
  · have htc := (h.placed.current t).1 hs
    rw [htc, show k.cont k.currp = none from hU] at hc
    cases hc
  · obtain ⟨k₁, hw, hI, ha, hv, hin₁, hcur, hcont⟩ := wakeup_eq h hs l
    rw [hw]
    have hI' : Inv idle (some t) none { k₁ with vtlist := l } :=
      ⟨hI.placed.congr rfl rfl rfl, hI.sorted.congr rfl rfl, hI.sems,
        hI.mtxs.still rfl rfl rfl rfl rfl,
        hI.waits.popThread (fun u hu he => hu (Option.some.inj he).symm) (hv.trans he), hI.idle,
        (fun hi => by rw [show k₁.inIsr = false from hi, hin] at hin₁; cases hin₁), hI.isr⟩
    exact hI'.resumeI ha RDY_TIMEOUT

theorem sound_expire (h : Inv idle none none k) (hU : k.Unlocked)
    (he : k.vtlist.expired.isSome) : ∃ k', k.expire = some k' ∧ Inv idle none none k' := by
  obtain ⟨⟨x, l⟩, hx⟩ := Option.isSome_iff_exists.1 he
  have hv := VTList.expired_eq_some.1 hx
  unfold expire
  rw [hx]
  cases x with
  | thread tp => exact ⟨_, rfl, inv_expire_thread h hU hv⟩
  | user vtp =>
    have hin := h.inIsr_of_expired hv
    exact ⟨_, rfl, h.placed.congr rfl rfl rfl, h.sorted.congr rfl rfl, h.sems,
      h.mtxs.still rfl rfl rfl rfl rfl, h.waits.popUser hv, h.idle,
      (fun hi => by rw [show k.inIsr = false from hi] at hin; cases hin), h.isr⟩

/-! ## The end of an interrupt handler -/

theorem sound_irqEpilogue (h : Inv idle none none k) (hU : k.Unlocked)
    (he : k.vtlist.expired = none) :
    ∃ k', k.irqEpilogue = some k' ∧ Inv idle none none k' ∧ k'.Top := by
  obtain ⟨k', hk⟩ : ∃ k', k.irqEpilogue = some k' := by
    unfold irqEpilogue
    split
    · next hp =>
      have hf : k.prio k.currp ≤ k.firstprio := by
        unfold chSchIsPreemptionRequired at hp
        split at hp
        · exact Nat.le_of_lt (of_decide_eq_true hp)
        · exact of_decide_eq_true hp
      obtain ⟨k₁, h1⟩ := h.pick_of_le hf
      unfold chSchDoReschedule
      split
      · exact ⟨_, by rw [chSchDoRescheduleBehind, h1]; rfl⟩
      · exact ⟨_, by rw [chSchDoRescheduleAhead, h1]; rfl⟩
    · exact ⟨_, rfl⟩
  obtain ⟨hS, hT⟩ := h.sorted.irqEpilogue hk
  have hin : k'.inIsr = false := by
    obtain ⟨k₁, -, rfl⟩ := Option.map_eq_some_iff.1 hk
    rfl
  exact ⟨k', hk, h.switch (Sched.irqEpilogue h.placed hk) (h.placed.irqEpilogue hk) hS hU hin
    (VTList.early_of_expired he), hT⟩

/-! ## Steps and runs -/

/-- Whatever is allowed next can be done, and keeps the invariant. -/
theorem Inv.step (h : Inv idle none none k) {a : Label n} (ha : k.Allowed idle a) :
    ∃ k', k.step a = some k' ∧ Inv idle none none k' := by
  cases a with
  | call c =>
    obtain ⟨hU, hi, hne, hc⟩ := ha
    obtain ⟨k', he, hI, -⟩ := sound_call h hU hi hne hc
    exact ⟨k', he, hI⟩
  | resume =>
    obtain ⟨k', he, hI, -⟩ := sound_resume h ha
    exact ⟨k', he, hI⟩
  | locked ops resched =>
    obtain ⟨hU, hi, -, hops⟩ := ha
    have hs := soundI_iops h hops
    cases resched with
    | true =>
      obtain ⟨k', he, hI, -⟩ := hs.reschedule hU hi
      exact ⟨k', he, hI⟩
    | false =>
      obtain ⟨k', he, hI, -⟩ := hs
      exact ⟨k', by rw [Kern.step, he]; rfl, hI⟩
  | isr op =>
    obtain ⟨k', he, hI, -, hcur, hcont⟩ := soundI_iop h ha.2
    refine ⟨_, by rw [Kern.step, he]; rfl, hI.enterIsr ?_⟩
    rw [Unlocked, hcont, hcur]
    exact ha.1
  | tick => exact ⟨_, rfl, inv_chSysTimerHandlerI h ha.1 ha.2⟩
  | expire => exact sound_expire h ha.1 ha.2
  | epilogue =>
    obtain ⟨k', he, hI, -⟩ := sound_irqEpilogue h ha.1 ha.2
    exact ⟨k', he, hI⟩

theorem Inv.of_step (h : Inv idle none none k) {a : Label n} (ha : k.Allowed idle a)
    (he : k.step a = some k') : Inv idle none none k' := by
  obtain ⟨k₁, h1, hI⟩ := h.step ha
  cases h1.symm.trans he
  exact hI

/-! ## The start -/

section
variable {main : Fin n} (hne : main ≠ idle) (cnts : Nat → Nat)
include hne

theorem chSysInit_eq : chSysInit main idle cnts =
    { prio := fun t => if t = idle then IDLEPRIO else if t = main then NORMALPRIO else 0
      realprio := fun t => if t = idle then IDLEPRIO else if t = main then NORMALPRIO else 0
      state := fun t => if t = idle then .ready else if t = main then .current else .final
      preempt := fun t => if t = idle ∨ t = main then CH_TIME_QUANTUM else 0
      rdymsg := fun _ => 0, epending := fun _ => 0, mtxlist := fun _ => [], msg := fun _ => 0
      cont := fun _ => none, ret := fun _ => .void, currp := main
      queue := fun q => if q = .ready then [idle] else []
      cnt := fun sp => cnts sp, owner := fun _ => none, vtlist := [], inIsr := false } := by
  have hp : IDLEPRIO ≤ NORMALPRIO := by decide
  simp only [chSysInit, chSchWakeupS, threadInit, setcurrp, setState, update_self,
    update_of_ne hne, hp, if_true, chSchReadyI, setRdymsg, prio_insert, setQueue]
  congr 1 <;> funext x <;> simp only [update_apply] <;> split_ifs <;> first | rfl | simp_all

theorem inv_chSysInit : Inv idle none none (chSysInit main idle cnts) := by
  rw [chSysInit_eq hne]
  have hst : ∀ {t : Fin n} {st : TState n}, ¬ st.Runnable → st ≠ .final →
      (if t = idle then TState.ready else if t = main then .current else .final) ≠ st := by
    intro t st hr hf he
    split_ifs at he
    · exact hr (.inl he.symm)
    · exact hr (.inr he.symm)
    · exact hf he.symm
  refine ⟨⟨⟨fun q => ?_, fun q t => ?_⟩, fun t => ?_⟩, ⟨?_, fun mp => ?_⟩, fun sp => ?_, ?_, ?_,
    .inl (if_pos rfl), (fun _ p hp => by cases hp), fun hi => by cases hi⟩
  · dsimp only
    split_ifs <;> simp
  · show t ∈ (if q = .ready then [idle] else []) ↔
      (if t = idle then TState.ready else if t = main then .current else .final).queue = some q
    split_ifs <;> simp_all [TState.queue, eq_comm]
  · dsimp only
    split_ifs with h1 h2
    · simp [h1, hne.symm]
    · simp [h2]
    · simp [h2]
  · exact List.pairwise_singleton ..
  · exact List.Pairwise.nil
  · show 0 = (-(cnts sp : Int)).toNat
    omega
  · refine ⟨fun _ _ => by simp, fun _ => List.nodup_nil, fun t mp hs => ?_,
      ⟨fun _ => Nat.le_refl _, fun {w t} hw => ?_, fun t _ => ⟨t, .refl, rfl⟩⟩, fun _ _ => rfl,
      fun t hs => ?_⟩
    · exact (hst (by rintro (h | h) <;> cases h) (by simp) hs).elim
    · obtain ⟨-, mp, -, ho⟩ := waitFor_eq_some.1 hw
      cases ho
    · dsimp only at hs ⊢
      split_ifs with h1 h2
      · decide
      · decide
      · rw [if_neg h1, if_neg h2] at hs
        exact (hs rfl).elim
  · refine ⟨List.nodup_nil, Nat.two_pow_pos 32, (fun _ ht => by cases ht),
      (fun _ _ hc => by cases hc),
      fun _ _ hs => (hst (by rintro (h | h) <;> cases h) (by simp) hs).elim,
      fun _ _ hs => (hst (by rintro (h | h) <;> cases h) (by simp) hs).elim,
      fun _ hs => (hst (by rintro (h | h) <;> cases h) (by simp) hs).elim,
      (fun _ _ hc => by cases hc), (fun _ _ hc => by cases hc), fun _ _ => rfl, fun t => ?_⟩
    dsimp only
    split_ifs <;> trivial

end

end Kern

end RobotPws.Kernel
