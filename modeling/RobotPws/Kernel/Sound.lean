import RobotPws.Kernel.Invariant

/-!
# The services keep the invariant

For each function of the kernel: it finds the threads it needs (`none` is not reached), keeps the
invariant, and leaves the thread with the greatest priority running if that was the case before. For
the functions of the I class only the first two hold.
-/

namespace RobotPws.Kernel

open RobotPws.Lib Function

variable {n : Nat}

namespace Kern

/-- How a call by the running thread ends. -/
def Sound (idle : Fin n) (k : Kern n) (r : Option (Kern n)) : Prop :=
  ∃ k', r = some k' ∧ Inv idle none none k' ∧ (k.Top → k'.Top)

/-- How a function of the I class ends: the running thread is still the same. -/
def SoundI (idle : Fin n) (k : Kern n) (r : Option (Kern n)) : Prop :=
  ∃ k', r = some k' ∧ Inv idle none none k' ∧ k'.inIsr = k.inIsr ∧ k'.currp = k.currp ∧
    k'.cont = k.cont

variable {idle : Fin n} {k k' k₀ : Kern n} {out but : Option (Fin n)} {t : Fin n} {st : TState n}
  {c : Option Cont} {rest : Rest} {time : UInt32} {sp qp mp : Nat} {l : List (Fin n)} {q : QId n}

theorem Sound.of_top {r : Option (Kern n)}
    (h : ∃ k', r = some k' ∧ Inv idle none none k' ∧ k'.Top) : Sound idle k r := by
  obtain ⟨k', he, hI, hT⟩ := h
  exact ⟨k', he, hI, fun _ => hT⟩

/-- Fields that are no concern of the invariant have changed, and nothing else. -/
theorem Sound.note (h : Inv idle none none k) (he : k'.bare = k.bare) :
    Sound idle k (some k') := by
  refine ⟨k', rfl, h.note he, fun hT => hT.congr ?_ ?_ ?_⟩
  · exact congrFun (show k'.bare.queue = k.bare.queue by rw [he]) _
  · exact show k'.bare.prio = k.bare.prio by rw [he]
  · exact show k'.bare.currp = k.bare.currp by rw [he]

/-! ## Going to sleep -/

theorem Enqueued.refl (h : Inv idle none none k) (hst : st.queue = none) : Enqueued st k k :=
  ⟨by rw [hst]; exact h.placed.enqueue_none, h.sorted, h.sems, rfl, rfl, rfl, rfl, rfl, rfl, rfl,
    rfl, fun _ => rfl⟩

theorem Enqueued.timer (he : Enqueued st k₀ k) (v : VTList (Timer n)) (t : Fin n)
    (c : Option Cont) : Enqueued st k₀ ({ k with vtlist := v }.setCont t c) :=
  ⟨⟨he.located.nodup, he.located.mem⟩, he.sorted.congr rfl rfl, he.sems, he.state, he.currp,
    he.prio, he.realprio, he.owner, he.mtxlist, he.epending, he.inIsr, he.msgs⟩

theorem Enqueued.cont (he : Enqueued st k₀ k) (t : Fin n) (c : Option Cont) :
    Enqueued st k₀ (k.setCont t c) := he.timer k.vtlist t c

/-- The end of the queue of an object, with the counter of a semaphore that goes with it. -/
theorem Enqueued.object (h : Inv idle none none k) (d : Nat → Int)
    (hq : q ≠ .ready ∧ (∀ mp, q ≠ .mtx mp) ∧ ∀ u, q ≠ .msg u) (hst : st.queue = some q)
    (hsem : SemOk ({ k with cnt := d }.queue_insert k.currp q)) :
    Enqueued st k ({ k with cnt := d }.queue_insert k.currp q) := by
  have hp : (k.queue q ++ [k.currp]).Perm (k.currp :: k.queue q) := List.perm_append_singleton ..
  have hl := h.placed.enqueue hp
  refine ⟨?_, ?_, hsem, rfl, rfl, rfl, rfl, rfl, rfl, rfl, rfl,
    fun u => queue_setQueue_of_ne (hq.2.2 u).symm ..⟩
  · rw [hst]
    exact ⟨hl.nodup, hl.mem⟩
  · exact (h.sorted.queue_insert k.currp hq.1 hq.2.1).congr rfl rfl

theorem Inv.goSleepTimeout (h : Inv idle none none k₀) (hU : k₀.Unlocked) (hi : k₀.inIsr = false)
    (hne : k₀.currp ≠ idle) (hk : Enqueued st k₀ k) (hcont : k.cont = k₀.cont)
    (hvt : k.vtlist = k₀.vtlist) (ht : time ≠ TIME_IMMEDIATE) (hl : st.Limited)
    (hok : ∀ c, SleepOk k₀ st (some ⟨rest, c⟩)) :
    ∃ k', k.chSchGoSleepTimeoutS st time rest = some k' ∧ Inv idle none none k' ∧ k'.Top := by
  unfold chSchGoSleepTimeoutS
  split
  · refine h.goSleep hU hi hne (hk.timer _ _ _) (hok true) ?_
      (.inr ⟨time, rest, ht, ?_, rfl, hl⟩)
    · show update k.cont k.currp _ = _
      rw [hcont, hk.currp]
    · show k.vtlist.chVTSetI (.thread k.currp) time = _
      rw [hvt, hk.currp]
  · refine h.goSleep hU hi hne (hk.cont _ _) (hok false) ?_ (.inl ⟨hvt, by simp⟩)
    show update k.cont k.currp _ = _
    rw [hcont, hk.currp]

/-! ## Taking a thread out of its queue -/

/-- A thread is taken out of the queue of an object; it is neither ready nor waiting for a mutex or
a message. -/
theorem Inv.takeOut (h : Inv idle none but k) (d : Nat → Int)
    (hq : q ≠ .ready ∧ (∀ mp, q ≠ .mtx mp) ∧ ∀ u, q ≠ .msg u) (hp : (k.queue q).Perm (t :: l))
    (hsem : SemOk ({ k with cnt := d }.setQueue q l)) :
    Inv idle (some t) but ({ k with cnt := d }.setQueue q l) ∧ (k.state t).queue = some q := by
  have hm : t ∈ k.queue q := hp.mem_iff.2 List.mem_cons_self
  have hs := h.placed.mem_iff.1 hm
  refine ⟨⟨(h.placed.remove hp).congr rfl rfl rfl, ?_, hsem, ?_, ?_, h.idle, h.early, h.isr⟩, hs⟩
  · refine (h.sorted.setQueue (l := l) (q := q) fun hq' => ?_).congr rfl rfl
    rcases hq' with he | ⟨mp, he⟩
    · exact (hq.1 he).elim
    · exact (hq.2.1 mp he).elim
  · have hw : ∀ mp, k.state t ≠ .wtmtx mp := fun mp he => by
      rw [he] at hs
      exact hq.2.1 mp (Option.some.inj hs).symm
    exact (h.mtxs.free hw).still rfl rfl rfl rfl rfl
  · exact (h.waits.weaken (some t)).congr rfl rfl rfl rfl
      fun u => queue_setQueue_of_ne (hq.2.2 u).symm ..

/-- A thread is taken out of the queue of a semaphore, whose counter goes up. -/
theorem Inv.takeSem (h : Inv idle none but k) (hp : (k.queue (.sem sp)).Perm (t :: l)) :
    Inv idle (some t) but ((k.setCnt sp (k.cnt sp + 1)).setQueue (.sem sp) l) ∧
      k.state t = .wtsem sp := by
  have hlen := h.sems sp
  rw [hp.length_eq, List.length_cons] at hlen
  obtain ⟨hI, hs⟩ := h.takeOut (update k.cnt sp (k.cnt sp + 1)) ⟨by simp, by simp, by simp⟩ hp
    (h.sems.set (by omega))
  refine ⟨hI, ?_⟩
  revert hs
  cases k.state t <;> simp [TState.queue]

theorem Inv.takeIo (h : Inv idle none but k) (hp : (k.queue (.io qp)).Perm (t :: l)) :
    Inv idle (some t) but (k.setQueue (.io qp) l) ∧ k.state t = .wtqueue qp := by
  obtain ⟨hI, hs⟩ := h.takeOut k.cnt ⟨by simp, by simp, by simp⟩ hp
    (h.sems.congr (fun sp => queue_setQueue_of_ne (by simp) ..) rfl)
  refine ⟨hI, ?_⟩
  revert hs
  cases k.state t <;> simp [TState.queue]

theorem Inv.free (h : Inv idle none but k) (hq : (k.state t).queue = none)
    (hw : ∀ mp, k.state t ≠ .wtmtx mp) : Inv idle (some t) but k :=
  ⟨h.placed.free hq, h.sorted, h.sems, h.mtxs.free hw, h.waits.weaken _, h.idle, h.early, h.isr⟩

theorem Inv.setCnt (h : Inv idle out but k) {d : Int}
    (hd : (k.queue (.sem sp)).length = (- d).toNat) : Inv idle out but (k.setCnt sp d) := by
  refine ⟨h.placed.congr rfl rfl rfl, h.sorted.congr rfl rfl, fun sp' => ?_,
    h.mtxs.still rfl rfl rfl rfl rfl, h.waits.congr rfl rfl rfl rfl fun _ => rfl, h.idle, h.early,
    h.isr⟩
  show (k.queue (.sem sp')).length = (- update k.cnt sp d sp').toNat
  by_cases hs : sp' = sp
  · rw [hs, update_self]; exact hd
  · rw [update_of_ne hs]; exact h.sems sp'

/-! ## Semaphores -/

/-- The running thread sleeps in a state that is neither about events nor about messages. -/
theorem SleepOk.of_message {b : Bool} (ha : st.Asleep) (hm : ∀ mp, st ≠ .wtmtx mp)
    (ho : ∀ m, st ≠ .wtorevt m) (hn : ∀ m, st ≠ .wtandevt m) :
    SleepOk k₀ st (some ⟨.message, b⟩) := by
  refine ⟨ha.ne.1, ha.ne.2.2, hm, fun m he => (ho m he).elim, fun m he => (hn m he).elim,
    fun he => (ha.ne.2.1 he).elim, (fun b he => by cases he), ?_⟩
  cases st with
  | wtmtx mp => exact (hm mp rfl).elim
  | wtorevt m => exact (ho m rfl).elim
  | wtandevt m => exact (hn m rfl).elim
  | wtsem _ | sleeping | sndmsgq _ | sndmsg | wtqueue _ => exact ⟨b, rfl⟩
  | _ => trivial

theorem sleepOk_wtsem (b : Bool) : SleepOk k₀ (.wtsem sp) (some ⟨.message, b⟩) :=
  .of_message trivial (by simp) (by simp) (by simp)

/-- `--sp->s_cnt < 0`: the running thread is put into the queue. -/
theorem Enqueued.sem (h : Inv idle none none k) (hc : k.cnt sp - 1 < 0) :
    Enqueued (.wtsem sp) k ((k.setCnt sp (k.cnt sp - 1)).queue_insert k.currp (.sem sp)) := by
  refine Enqueued.object h (update k.cnt sp (k.cnt sp - 1)) ⟨by simp, by simp, by simp⟩ rfl ?_
  have hlen := h.sems sp
  refine h.sems.set ?_
  rw [List.length_append, List.length_singleton]
  show (k.queue (.sem sp)).length + 1 = _
  omega

/-- `--sp->s_cnt` is not below zero. -/
theorem Inv.takeToken (h : Inv idle out but k) (hc : ¬ k.cnt sp - 1 < 0) :
    Inv idle out but (k.setCnt sp (k.cnt sp - 1)) := by
  have hlen := h.sems sp
  exact h.setCnt (by omega)

theorem setCnt_self (sp : Nat) (k : Kern n) : k.setCnt sp (k.cnt sp) = k := by
  unfold setCnt
  rw [update_eq_self]

theorem cnt_setCnt (sp : Nat) (d : Int) (k : Kern n) : (k.setCnt sp d).cnt sp = d := update_self ..

theorem setCnt_setCnt (sp : Nat) (d e : Int) (k : Kern n) :
    (k.setCnt sp d).setCnt sp e = k.setCnt sp e := by
  unfold setCnt
  dsimp only
  rw [update_idem]

theorem Top.setCnt (hT : k.Top) (d : Int) : (k.setCnt sp d).Top := hT

theorem sound_chSemWait (h : Inv idle none none k) (hU : k.Unlocked) (hi : k.inIsr = false)
    (hne : k.currp ≠ idle) (sp : Nat) : Sound idle k (k.chSemWait sp) := by
  unfold chSemWait
  dsimp only
  rw [cnt_setCnt]
  split
  · next hc =>
    exact .of_top (h.goSleep hU hi hne ((Enqueued.sem h hc).cont _ _) (sleepOk_wtsem _) rfl
      (.inl ⟨rfl, by simp⟩))
  · next hc => exact ⟨_, rfl, (h.takeToken hc).setRet _, fun hT => hT⟩

theorem sound_chSemWaitTimeout (h : Inv idle none none k) (hU : k.Unlocked) (hi : k.inIsr = false)
    (hne : k.currp ≠ idle) (sp : Nat) (time : UInt32) :
    Sound idle k (k.chSemWaitTimeout sp time) := by
  unfold chSemWaitTimeout
  dsimp only
  rw [cnt_setCnt]
  split
  · next hc =>
    split
    · rw [setCnt_setCnt, show k.cnt sp - 1 + 1 = k.cnt sp by omega, setCnt_self]
      exact .note h rfl
    · next ht =>
      exact .of_top (h.goSleepTimeout hU hi hne (Enqueued.sem h hc) rfl rfl ht trivial
        fun b => sleepOk_wtsem b)
  · next hc => exact ⟨_, rfl, (h.takeToken hc).setRet _, fun hT => hT⟩

/-- `++sp->s_cnt` is above zero. -/
theorem Inv.giveToken (h : Inv idle out but k) (hc : ¬ k.cnt sp + 1 ≤ 0) :
    Inv idle out but (k.setCnt sp (k.cnt sp + 1)) := by
  have hlen := h.sems sp
  exact h.setCnt (by omega)

/-- `++sp->s_cnt <= 0`: a thread is waiting. -/
theorem Inv.fifoSem (h : Inv idle none but k) (hc : k.cnt sp + 1 ≤ 0) :
    ∃ t k', (k.setCnt sp (k.cnt sp + 1)).fifo_remove (.sem sp) = some (t, k') ∧
      Inv idle (some t) but k' ∧ k'.state t = .wtsem sp ∧ k'.inIsr = k.inIsr ∧
        k'.currp = k.currp ∧ k'.cont = k.cont ∧ (k.Top → k'.Top) := by
  have hlen := h.sems sp
  cases hq : k.queue (.sem sp) with
  | nil => rw [hq, List.length_nil] at hlen; omega
  | cons t l =>
    obtain ⟨hI, hs⟩ := h.takeSem (l := l) (t := t) (by rw [hq])
    refine ⟨t, _, fifo_remove_eq_some.2 ⟨l, hq, rfl⟩, hI, hs, rfl, rfl, rfl, fun hT => ?_⟩
    exact hT.congr (queue_setQueue_of_ne (by simp) ..) rfl rfl

theorem sound_chSemSignal (h : Inv idle none none k) (hi : k.inIsr = false) (sp : Nat) :
    Sound idle k (k.chSemSignal sp) := by
  unfold chSemSignal
  have h' : Inv idle none none (k.setRet .void) := h.setRet _
  rw [show (k.setCnt sp (k.cnt sp + 1)).setRet .void =
    (k.setRet .void).setCnt sp ((k.setRet .void).cnt sp + 1) from rfl]
  dsimp only
  rw [cnt_setCnt]
  split
  · next hc =>
    obtain ⟨t, k', he, hI, hs, hin, -, -, hT⟩ := h'.fifoSem hc
    rw [he, Option.map_some]
    exact ⟨_, rfl, hI.chSchWakeupS (by rw [hs]; trivial) (hin.trans hi) _,
      fun hT' => (hT hT').chSchWakeupS t _⟩
  · next hc => exact ⟨_, rfl, h'.giveToken hc, fun hT => hT⟩

theorem soundI_chSemSignalI (h : Inv idle none none k) (sp : Nat) :
    SoundI idle k (k.chSemSignalI sp) := by
  unfold chSemSignalI
  dsimp only
  rw [cnt_setCnt]
  split
  · next hc =>
    obtain ⟨t, k', he, hI, hs, hin, hcur, hcont, -⟩ := h.fifoSem hc
    rw [he, Option.map_some]
    exact ⟨_, rfl, hI.readyMsgI (by rw [hs]; trivial) _, hin, hcur, hcont⟩
  · next hc => exact ⟨_, rfl, h.giveToken hc, rfl, rfl, rfl⟩

/-- The loop takes all who wait, while the counter counts up to zero. -/
theorem resetLoop_sound (m : Nat) (h : Inv idle none none (k.setCnt sp (-m))) :
    ∃ k', resetLoop sp m k = some k' ∧ Inv idle none none (k'.setCnt sp 0) ∧ k'.cnt = k.cnt ∧
      k'.inIsr = k.inIsr ∧ k'.currp = k.currp ∧ k'.cont = k.cont := by
  induction m generalizing k with
  | zero => exact ⟨k, rfl, h, rfl, rfl, rfl, rfl⟩
  | succ m ih =>
    have hlen := h.sems sp
    rw [cnt_setCnt] at hlen
    rcases List.eq_nil_or_concat ((k.setCnt sp (-(m + 1 : Nat))).queue (.sem sp)) with
      hq | ⟨l, t, hq⟩
    · rw [hq, List.length_nil] at hlen
      omega
    · rw [List.concat_eq_append] at hq
      obtain ⟨hI, hs⟩ := h.takeSem (l := l) (t := t)
        (by rw [hq]; exact List.perm_append_singleton ..)
      rw [cnt_setCnt, setCnt_setCnt, show -((m + 1 : Nat) : Int) + 1 = -(m : Int) by omega] at hI
      have ha : (((k.setCnt sp (-m)).setQueue (.sem sp) l).state t).Asleep := by
        rw [show ((k.setCnt sp (-m)).setQueue (.sem sp) l).state t = .wtsem sp from hs]
        trivial
      have hI' := hI.readyMsgI ha RDY_RESET
      obtain ⟨k', he, hk', h1, h2, h3, h4⟩ :=
        ih (k := (k.setQueue (.sem sp) l).readyMsgI t RDY_RESET) hI'
      have hl : k.lifo_remove (.sem sp) = some (t, k.setQueue (.sem sp) l) :=
        lifo_remove_eq_some.2 ⟨l, hq, rfl⟩
      refine ⟨k', ?_, hk', h1, h2, h3, h4⟩
      rw [resetLoop, hl, Option.bind_some]
      exact he

theorem soundI_chSemResetI (h : Inv idle none none k) (sp c : Nat) :
    SoundI idle k (k.chSemResetI sp c) := by
  unfold chSemResetI
  have hlen := h.sems sp
  have h0 : Inv idle none none ((k.setCnt sp c).setCnt sp (-((- k.cnt sp).toNat : Int))) := by
    rw [setCnt_setCnt]
    exact h.setCnt (by omega)
  obtain ⟨k', he, hI, h1, h2, h3, h4⟩ := resetLoop_sound _ h0
  refine ⟨k', he, ?_, h2, h3, h4⟩
  have hc : k'.cnt sp = c := by rw [h1, cnt_setCnt]
  have hlen' := hI.sems sp
  rw [cnt_setCnt] at hlen'
  have hset : Inv idle none none ((k'.setCnt sp 0).setCnt sp c) :=
    hI.setCnt (by rw [hlen']; omega)
  rwa [setCnt_setCnt, ← hc, setCnt_self] at hset

theorem SoundI.reschedule {r : Option (Kern n)} (h : SoundI idle k r) (hU : k.Unlocked)
    (hi : k.inIsr = false) : Sound idle k (r.bind chSchRescheduleS) := by
  obtain ⟨k', rfl, hI, hin, hcur, hcont⟩ := h
  rw [Option.bind_some]
  exact .of_top (hI.chSchRescheduleS (by rw [Unlocked, hcont, hcur]; exact hU) (hin.trans hi))

theorem sound_chSemReset (h : Inv idle none none k) (hU : k.Unlocked) (hi : k.inIsr = false)
    (sp c : Nat) : Sound idle k (k.chSemReset sp c) :=
  (soundI_chSemResetI (h.setRet .void) sp c).reschedule hU hi

theorem sound_chSemSignalWait (h : Inv idle none none k) (hU : k.Unlocked) (hi : k.inIsr = false)
    (hne : k.currp ≠ idle) (sps spw : Nat) : Sound idle k (k.chSemSignalWait sps spw) := by
  unfold chSemSignalWait
  obtain ⟨k₁, he, hI, hin, hcur, hcont⟩ := soundI_chSemSignalI h sps
  have hU₁ : k₁.Unlocked := by rw [Unlocked, hcont, hcur]; exact hU
  rw [he, Option.bind_some]
  dsimp only
  rw [cnt_setCnt]
  split
  · next hc =>
    exact .of_top (hI.goSleep hU₁ (hin.trans hi) (hcur ▸ hne) ((Enqueued.sem hI hc).cont _ _)
      (sleepOk_wtsem _) rfl (.inl ⟨rfl, by simp⟩))
  · next hc =>
    exact .of_top (((hI.takeToken hc).setRet _).chSchRescheduleS hU₁ (hin.trans hi))

/-! ## Mutexes -/

theorem Inv.giveMtx (h : Inv idle none none k) (ho : k.owner mp = none) :
    Inv idle none none (k.giveMtx k.currp mp) :=
  ⟨h.placed.congr rfl rfl rfl, h.sorted.congr rfl rfl, h.sems.congr (fun _ => rfl) rfl,
    h.mtxs.giveMtx h.placed ho, h.waits.congr rfl rfl rfl rfl fun _ => rfl, h.idle, h.early, h.isr⟩

theorem Inv.lockWait (h : Inv idle none none k) (hU : k.Unlocked) (hi : k.inIsr = false)
    (hne : k.currp ≠ idle) (ho : k.owner mp = some t) :
    ∃ k', (k.inherit (n + 1) t).bind (fun k => (k.prio_insert k.currp (.mtx mp)).chSchGoSleepS
      (.wtmtx mp)) = some k' ∧ Inv idle none none k' ∧ k'.Top := by
  obtain ⟨k₁, he⟩ := Option.isSome_iff_exists.1 (inherit_isSome h.placed h.sorted h.mtxs t)
  obtain ⟨hb, hP, hS, hr⟩ := (inherit_spec (update (k.waitFor none) k.currp (some t))
    h.placed h.sorted (fun t mp hs => h.mtxs.owned t mp hs (by simp))
    fun u hu => update_of_ne hu ..).2 k₁ he
  rw [he, Option.bind_some]
  have hl := hP.enqueue (q := .mtx mp)
    (l := insertBehind k₁.prio k₁.currp (k₁.queue (.mtx mp))) (List.perm_orderedInsert _ _ _)
  obtain ⟨k', he', hs, hst, hP', hS', hT, hin, hidle⟩ := switchFrom idle (.wtmtx mp)
    (k := k₁.prio_insert k₁.currp (.mtx mp)) hl hP.current
    (hS.prio_insert _ _) (by rintro (h | h) <;> cases h)
    (by show (k₁.state idle).Runnable; rw [hb.state]; exact h.idle)
    (by show k₁.currp ≠ idle; rw [hb.currp]; exact hne)
  have hc : (k₁.prio_insert k₁.currp (.mtx mp)).currp = k.currp := hb.currp
  rw [hc] at hs hst
  have hq : ∀ q, q ≠ .ready → (∀ mp, q ≠ .mtx mp) →
      (k₁.prio_insert k₁.currp (.mtx mp)).queue q = k.queue q := fun q h1 h2 =>
    (queue_setQueue_of_ne (h2 mp) ..).trans (hb.queue q h1 h2)
  have hi' : k'.inIsr = false := (hin.trans hb.inIsr).trans hi
  have hs₁ : Sched {k.currp} (k₁.prio_insert k₁.currp (.mtx mp)) k' := hs
  refine ⟨k', he', ⟨hP', hS', ?_, ?_, ?_, hidle, fun _ => ?_,
    fun hi'' => by rw [hi'] at hi''; cases hi''⟩, hT⟩
  · exact (h.sems.congr (fun sp => hq _ (by simp) (by simp)) hb.cnt :
      SemOk (k₁.prio_insert k₁.currp (.mtx mp))).sched hs
  · have hb' : Boosted k (k₁.prio_insert k₁.currp (.mtx mp)) :=
      ⟨hb.realprio, hb.state, hb.epending, hb.mtxlist, hb.cont, hb.cnt, hb.owner, hb.vtlist,
        hb.currp, hb.inIsr, hq⟩
    exact h.mtxs.wait h.placed hb' hr ho hs₁ hst
  · refine h.waits.sleep (c := none) hU hs₁ hst hb.state ?_ (.inl ⟨hb.vtlist, by simp⟩) hb.epending
      (fun u => hq _ (by simp) (by simp)) (by rintro (h | h) <;> cases h) (by simp) (by simp)
      (by simp) (by simp) (by simp) rfl
    show k₁.cont = _
    rw [hb.cont]
    have : k.cont k.currp = none := hU
    rw [← this, update_eq_self]
  · rw [hs.still.vtlist]
    show DeltaList.Early k₁.vtlist
    rw [hb.vtlist]
    exact h.early hi

theorem sound_chMtxLock (h : Inv idle none none k) (hU : k.Unlocked) (hi : k.inIsr = false)
    (hne : k.currp ≠ idle) (mp : Nat) : Sound idle k (k.chMtxLock mp) := by
  have h' : Inv idle none none (k.setRet .void) := h.setRet _
  unfold chMtxLock
  dsimp only
  split
  · next t ho => exact .of_top (h'.lockWait hU hi hne ho)
  · next ho => exact ⟨_, rfl, h'.giveMtx ho, fun hT => hT⟩

theorem sound_chMtxTryLock (h : Inv idle none none k) (mp : Nat) :
    Sound idle k (k.chMtxTryLock mp) := by
  unfold chMtxTryLock
  split
  · exact .note h rfl
  · next ho => exact ⟨_, rfl, (h.giveMtx ho).setRet _, fun hT => hT⟩

/-- The first of those who wait for the mutex of the running thread gets it, and is in hand. -/
theorem Inv.pass {ump p : Nat} {ml : List Nat} (h : Inv idle none but k)
    (hb : ∀ u, but = some u → u = k.currp) (hl : k.mtxlist k.currp = ump :: ml)
    (hq : k.queue (.mtx ump) = t :: l) (hreal : k.realprio k.currp ≤ p)
    (hle : ∀ m ∈ ml, ∀ w ∈ k.queue (.mtx m), k.prio w ≤ p)
    (hatt : but ≠ some k.currp → p = k.realprio k.currp ∨
      ∃ m ∈ ml, ∃ w ∈ k.queue (.mtx m), k.prio w = p) :
    Inv idle (some t) but ((((k.setMtxlist k.currp ml).setPrio k.currp p).setQueue (.mtx ump)
      l).giveMtx t ump) ∧ k.state t = .wtmtx ump := by
  have hm : t ∈ k.queue (.mtx ump) := by rw [hq]; exact List.mem_cons_self
  have hs : k.state t = .wtmtx ump := by
    have hs := h.placed.mem_iff.1 hm
    revert hs
    cases k.state t <;> simp [TState.queue]
  have htc := h.placed.ne_currp_of_mem hm
  refine ⟨⟨(h.placed.remove (l := l) (by rw [hq])).congr rfl rfl rfl, ?_, ?_, ?_, ?_, h.idle,
    h.early, h.isr⟩, hs⟩
  · have hn : ∀ q, k.currp ∉ k.queue q := fun q hc => h.placed.ne_currp_of_mem hc rfl
    have h1 := h.sorted.setPrio (hn _) (fun _ => hn _) p
    exact (h1.remove (q := .mtx ump) (l := l)
      (by rw [show (k.setPrio k.currp p).queue (.mtx ump) = t :: l from hq]
          exact List.sublist_cons_self t l)).congr rfl rfl
  · have hq' : ∀ q, q ≠ .mtx ump → (k.setQueue (.mtx ump) l).queue q = k.queue q :=
      fun q hne => queue_setQueue_of_ne hne ..
    exact h.sems.congr (fun sp => hq' (.sem sp) (by simp)) rfl
  · refine h.mtxs.pass hb h.placed h.sorted hl hq hreal hle hatt rfl ?_ rfl rfl rfl
    show update (update k.mtxlist k.currp ml) t (ump :: update k.mtxlist k.currp ml t) = _
    rw [update_of_ne htc]
  · have hq' : ∀ q, q ≠ .mtx ump → (k.setQueue (.mtx ump) l).queue q = k.queue q :=
      fun q hne => queue_setQueue_of_ne hne ..
    exact (h.waits.weaken (some t)).congr rfl rfl rfl rfl fun u => hq' (.msg u) (by simp)

theorem Inv.drop {ump : Nat} {ml : List Nat} (h : Inv idle none but k)
    (hl : k.mtxlist k.currp = ump :: ml) (hq : k.queue (.mtx ump) = []) :
    Inv idle none but ((k.setMtxlist k.currp ml).setOwner ump none) :=
  ⟨h.placed.congr rfl rfl rfl, h.sorted.congr rfl rfl, h.sems.congr (fun _ => rfl) rfl,
    h.mtxs.drop h.placed hl hq rfl rfl rfl rfl rfl, h.waits.congr rfl rfl rfl rfl fun _ => rfl,
    h.idle, h.early, h.isr⟩

/-- Without the mutex the running thread may be below others that are ready; but then the one who
gets the mutex has the priority it had inherited. -/
theorem Inv.le_max_pass {ump p : Nat} {ml : List Nat} (h : Inv idle none none k)
    (hl : k.mtxlist k.currp = ump :: ml) (hq : k.queue (.mtx ump) = t :: l)
    (hreal : k.realprio k.currp ≤ p) (hle : ∀ m ∈ ml, ∀ w ∈ k.queue (.mtx m), k.prio w ≤ p) :
    k.prio k.currp ≤ max p (k.prio t) := by
  obtain ⟨howner, hnot, hrest⟩ := h.mtxs.currp_owns hl
  obtain ⟨w, hw, he⟩ := h.mtxs.inherits.attained k.currp (by simp)
  rcases Relation.ReflTransGen.cases_tail hw with hwc | ⟨v, hv, hvc⟩
  · rw [← he, ← hwc]
    omega
  · have hle' : k.prio k.currp ≤ k.prio v := by
      rw [← he]
      exact Nat.le_trans (h.mtxs.inherits.real_le w) (h.mtxs.inherits.waitsFor_le hv)
    obtain ⟨-, m, hs, ho⟩ := waitFor_eq_some.1 hvc
    have hm : v ∈ k.queue (.mtx m) := h.placed.mem_iff.2 (by rw [hs]; rfl)
    by_cases hmu : m = ump
    · subst hmu
      have hF := h.sorted.mtx m
      rw [hq] at hF hm
      have := hF.head_max hm
      omega
    · have := hle m ((hrest m).2 ⟨hmu, ho⟩) v hm
      omega

theorem sound_chMtxUnlock (h : Inv idle none none k) (hi : k.inIsr = false)
    (hml : k.mtxlist k.currp ≠ []) : Sound idle k k.chMtxUnlock := by
  unfold chMtxUnlock
  cases hl : k.mtxlist k.currp with
  | nil => exact (hml hl).elim
  | cons ump ml =>
    dsimp only
    have h' : Inv idle none none (k.setRet (.mutex ump)) := h.setRet _
    cases hq : k.queue (.mtx ump) with
    | nil =>
      rw [if_neg (by
        rw [show ((k.setMtxlist k.currp ml).setRet (.mutex ump)).queue (.mtx ump) = [] from hq]
        simp)]
      exact ⟨_, rfl, h'.drop hl hq, fun hT => hT⟩
    | cons t l =>
      rw [if_pos (by
        rw [show ((k.setMtxlist k.currp ml).setRet (.mutex ump)).queue (.mtx ump) = t :: l from hq]
        simp)]
      obtain ⟨h1, h2, h3⟩ := newprio_spec h.sorted (k.realprio k.currp) ml
      obtain ⟨hI, hs⟩ := h'.pass (by simp) hl hq h1 h2 fun _ => h3
      have ha : (k.state t).Asleep := by
        rw [show k.state t = .wtmtx ump from hs]
        trivial
      have htc : t ≠ k.currp := h.placed.ne_currp fun he => ha.ne.1 (.inr he)
      refine ⟨_, Option.map_eq_some_iff.2 ⟨(t, _), handOver_eq_some.2 ⟨l, hq, rfl⟩, rfl⟩,
        hI.chSchWakeupS ha hi RDY_OK, fun hT => Top.wakeup (fun u hu => ?_) RDY_OK⟩
      have hu' : u ∈ k.queue .ready := by
        have hu' : u ∈ (k.setQueue (.mtx ump) l).queue .ready := hu
        rwa [queue_setQueue_of_ne (by simp)] at hu'
      have huc : u ≠ k.currp := h.placed.ne_currp_of_mem hu'
      show update k.prio k.currp _ u ≤ max (update k.prio k.currp _ k.currp)
        (update k.prio k.currp _ t)
      rw [update_of_ne huc, update_self, update_of_ne htc]
      exact Nat.le_trans (hT u hu') (h.le_max_pass hl hq h1 h2)

/-- One pass of the loop: the priority of the running thread stays until the end. -/
theorem Inv.unlockOne {ump : Nat} {ml : List Nat} (h : Inv idle none (some k.currp) k)
    (hl : k.mtxlist k.currp = ump :: ml) :
    Inv idle none (some k.currp) (k.unlockOne k.currp ump ml) ∧
      (k.unlockOne k.currp ump ml).mtxlist k.currp = ml ∧
      (k.unlockOne k.currp ump ml).currp = k.currp ∧
      (k.unlockOne k.currp ump ml).inIsr = k.inIsr ∧
      (k.unlockOne k.currp ump ml).cont = k.cont := by
  unfold Kern.unlockOne
  dsimp only
  cases hq : k.queue (.mtx ump) with
  | nil =>
    have hn : (k.setMtxlist k.currp ml).handOver ump = none := by
      unfold handOver fifo_remove
      rw [show (k.setMtxlist k.currp ml).queue (.mtx ump) = [] from hq]
      rfl
    rw [hn]
    exact ⟨h.drop hl hq, update_self .., rfl, rfl, rfl⟩
  | cons t l =>
    have hs : (k.setMtxlist k.currp ml).handOver ump =
        some (t, ((k.setMtxlist k.currp ml).setQueue (.mtx ump) l).giveMtx t ump) :=
      handOver_eq_some.2 ⟨l, hq, rfl⟩
    obtain ⟨-, -, hrest⟩ := h.mtxs.currp_owns hl
    have hle : ∀ m ∈ ml, ∀ w ∈ k.queue (.mtx m), k.prio w ≤ k.prio k.currp := by
      intro m hm w hw
      have hst := h.placed.mem_iff.1 hw
      refine h.mtxs.inherits.wait_le (waitFor_eq_some.2 ⟨by simp, m, ?_, ((hrest m).1 hm).2⟩)
      revert hst
      cases k.state w <;> simp [TState.queue]
    obtain ⟨hI, hst⟩ := h.pass (p := k.prio k.currp) (by simp) hl hq
      (h.mtxs.inherits.real_le _) hle (by simp)
    have hp : (k.setMtxlist k.currp ml).setPrio k.currp (k.prio k.currp) =
        k.setMtxlist k.currp ml := by
      unfold setPrio
      rw [show k.prio k.currp = (k.setMtxlist k.currp ml).prio k.currp from rfl, update_eq_self]
    rw [hp] at hI
    rw [hs]
    have htc : t ≠ k.currp := h.placed.ne_currp (by rw [hst]; simp)
    refine ⟨hI.chSchReadyI ?_, ?_, rfl, rfl, rfl⟩
    · rw [show (((k.setMtxlist k.currp ml).setQueue (.mtx ump) l).giveMtx t ump).state t =
        .wtmtx ump from hst]
      trivial
    · show update (update k.mtxlist k.currp ml) t _ k.currp = ml
      rw [update_of_ne htc.symm, update_self]

theorem Inv.unlockLoop {ml : List Nat} (h : Inv idle none (some k.currp) k)
    (hl : k.mtxlist k.currp = ml) :
    Inv idle none (some k.currp) (unlockLoop k.currp ml k) ∧
      (unlockLoop k.currp ml k).mtxlist k.currp = [] ∧
      (unlockLoop k.currp ml k).currp = k.currp ∧ (unlockLoop k.currp ml k).inIsr = k.inIsr ∧
      (unlockLoop k.currp ml k).cont = k.cont := by
  induction ml generalizing k with
  | nil => exact ⟨h, hl, rfl, rfl, rfl⟩
  | cons ump ml ih =>
    obtain ⟨h1, h2, h3, h4, h5⟩ := h.unlockOne hl
    rw [Kern.unlockLoop]
    revert h1 h2 h3 h4 h5
    generalize k.unlockOne k.currp ump ml = k₁
    intro h1 h2 h3 h4 h5
    rw [← h3] at h1 h2 ⊢
    obtain ⟨h6, h7, h8, h9, h10⟩ := ih h1 h2
    exact ⟨h6, h7, h8, h9.trans h4, h10.trans h5⟩

theorem Inv.settle (h : Inv idle none (some k.currp) k) (hl : k.mtxlist k.currp = []) :
    Inv idle none none (k.setPrio k.currp (k.realprio k.currp)) := by
  have hn : ∀ q, k.currp ∉ k.queue q := fun q hc => h.placed.ne_currp_of_mem hc rfl
  exact ⟨h.placed.congr rfl rfl rfl, h.sorted.setPrio (hn _) (fun _ => hn _) _,
    h.sems.congr (fun _ => rfl) rfl, h.mtxs.settle h.placed hl,
    h.waits.congr rfl rfl rfl rfl fun _ => rfl, h.idle, h.early, h.isr⟩

theorem Inv.excuse (h : Inv idle out none k) (b : Option (Fin n)) : Inv idle out b k :=
  ⟨h.placed, h.sorted, h.sems, ⟨h.mtxs.owns, h.mtxs.nodup, h.mtxs.owned,
    h.mtxs.inherits.mono (by simp), h.mtxs.final, h.mtxs.pos⟩, h.waits, h.idle, h.early, h.isr⟩

theorem sound_chMtxUnlockAll (h : Inv idle none none k) (hU : k.Unlocked) (hi : k.inIsr = false) :
    Sound idle k k.chMtxUnlockAll := by
  unfold chMtxUnlockAll
  dsimp only
  split
  · obtain ⟨k₁, hk₁⟩ : ∃ k₁, unlockLoop k.currp ((k.setRet .void).mtxlist k.currp)
      (k.setRet .void) = k₁ := ⟨_, rfl⟩
    obtain ⟨hI, hl, hcur, hin, hcont⟩ : Inv idle none (some k.currp) k₁ ∧
        k₁.mtxlist k.currp = [] ∧ k₁.currp = k.currp ∧ k₁.inIsr = k.inIsr ∧ k₁.cont = k.cont := by
      rw [← hk₁]
      exact Inv.unlockLoop (k := k.setRet .void) ((h.setRet .void).excuse _) rfl
    rw [hk₁]
    rw [← hcur] at hI hl ⊢
    refine .of_top ((hI.settle hl).chSchRescheduleS ?_ (hin.trans hi))
    show k₁.cont k₁.currp = none
    rw [hcont, hcur]
    exact hU
  · exact .note h rfl

/-! ## Messages -/

theorem chSchReadyI_queue_insert (k : Kern n) (t u : Fin n) (hq : q ≠ .ready) :
    (k.queue_insert u q).chSchReadyI t = (k.chSchReadyI t).queue_insert u q := by
  simp only [Kern.chSchReadyI, prio_insert, queue_insert, setState, setQueue, update_of_ne hq,
    update_of_ne hq.symm]
  rw [update_comm hq]

/-- The running thread sleeps until `t` has taken its message and answered. -/
theorem Inv.sendSleep (hP : Placed none k) (hS : Sorted k) (hsem : SemOk k)
    (hM : Mutexes none none k)
    (hW : Waits none (k.setQueue (.msg t) (k.queue (.msg t) ++ [k.currp]))) (hU : k.Unlocked)
    (hi : k.inIsr = false) (hne : k.currp ≠ idle) (hidle : (k.state idle).Runnable)
    (hE : DeltaList.Early k.vtlist) :
    ∃ k', ((k.setCont k.currp (some ⟨.message, false⟩)).queue_insert k.currp
      (.msg t)).chSchGoSleepS (.sndmsgq t) = some k' ∧ Inv idle none none k' ∧ k'.Top := by
  obtain ⟨k₁, hk₁⟩ : ∃ k₁, (k.setCont k.currp (some ⟨.message, false⟩)).queue_insert k.currp
    (.msg t) = k₁ := ⟨_, rfl⟩
  have hq : ∀ q, q ≠ .msg t → k₁.queue q = k.queue q := fun q hne => by
    rw [← hk₁]
    exact queue_setQueue_of_ne hne ..
  have hl : Located (update k₁.places k₁.currp (TState.sndmsgq t).queue) k₁ := by
    have hl := hP.enqueue (q := .msg t) (l := k.queue (.msg t) ++ [k.currp])
      (List.perm_append_singleton ..)
    rw [← hk₁]
    exact ⟨hl.nodup, hl.mem⟩
  have hS₁ : Sorted k₁ := by
    rw [← hk₁]
    exact (hS.queue_insert k.currp (q := .msg t) (by simp) (by simp)).congr rfl rfl
  have hM₁ : Mutexes none none k₁ := by
    rw [← hk₁]
    exact hM.still rfl rfl rfl rfl rfl
  have hcnt : k₁.cnt = k.cnt := by rw [← hk₁]; rfl
  have hcont : k₁.cont = update k.cont k.currp (some ⟨.message, false⟩) := by rw [← hk₁]; rfl
  have hv : k₁.vtlist = k.vtlist := by rw [← hk₁]; rfl
  have hst₁ : k₁.state = k.state := by rw [← hk₁]; rfl
  have hep : k₁.epending = k.epending := by rw [← hk₁]; rfl
  have hin₁ : k₁.inIsr = k.inIsr := by rw [← hk₁]; rfl
  have hc : k₁.currp = k.currp := by rw [← hk₁]; rfl
  have hmsg : ∀ u, k₁.queue (.msg u) =
      (k.setQueue (.msg t) (k.queue (.msg t) ++ [k.currp])).queue (.msg u) := by
    rw [← hk₁]; exact fun _ => rfl
  rw [hk₁]
  obtain ⟨k', he, hs, hst, hP', hS', hT, hin, hidle'⟩ := switchFrom idle _ hl
    (by rw [hst₁, hc]; exact hP.current) hS₁ (by rintro (h | h) <;> cases h)
    (by rw [hst₁]; exact hidle) (by rw [hc]; exact hne)
  have hi' : k'.inIsr = false := (hin.trans hin₁).trans hi
  refine ⟨k', he, ⟨hP', hS', ?_, ?_, ?_, hidle', fun _ => by rw [hs.still.vtlist, hv]; exact hE,
    fun hi'' => by rw [hi'] at hi''; cases hi''⟩, hT⟩
  · exact (hsem.congr (fun sp => hq (.sem sp) (by simp)) hcnt).sched hs
  · exact hM₁.sleep hs (by rw [hst₁, hc]; exact hP.currp) (fun mp => by rw [hst]; simp)
      (by rw [hst]; simp)
  · rw [hc] at hs hst
    exact hW.sleep (c := some ⟨.message, false⟩) hU hs hst hst₁ hcont (.inl ⟨hv, by simp⟩) hep hmsg
      (by rintro (h | h) <;> cases h) (by simp) (by simp) (by simp) (by simp) (by simp) ⟨_, rfl⟩

theorem sound_chMsgSend (h : Inv idle none none k) (hU : k.Unlocked) (hi : k.inIsr = false)
    (hne : k.currp ≠ idle) (hf : k.state t ≠ .final) (msg : Int) :
    Sound idle k (k.chMsgSend t msg) := by
  have h' : Inv idle none none (k.setMsg k.currp msg) := h.note rfl
  unfold chMsgSend
  dsimp only
  split
  · next hs =>
    have hs' : (k.setMsg k.currp msg).state t = .wtmsg := hs
    have htc : t ≠ k.currp := h'.placed.ne_currp (by rw [hs']; simp)
    have hti : idle ≠ t := by
      rintro rfl
      rcases h'.idle with hr | hr <;> rw [hs'] at hr <;> cases hr
    have hsched := Sched.chSchReadyI (k.setMsg k.currp msg) t
    have hrun : (((k.setMsg k.currp msg).chSchReadyI t).state t).Runnable := .inl (update_self ..)
    have hP : Placed (some t) (k.setMsg k.currp msg) := h'.placed.free (by rw [hs']; rfl)
    have hM := (h'.mtxs.free fun mp => by rw [hs']; simp).ready hsched hrun (by rw [hs']; simp)
    -- for what `t` waits for the message has been put in before `t` is made ready
    have hW : Waits none (((k.setMsg k.currp msg).queue_insert k.currp (.msg t)).chSchReadyI t) :=
      (h'.waits.sendTo (l := k.queue (.msg t) ++ [k.currp]) (by simp) (.inr rfl)
        (by rw [hs']; simp)).ready (Sched.chSchReadyI _ t) (.inl (update_self ..)) fun _ _ => by
          rw [queue_setQueue_self]; simp
    rw [chSchReadyI_queue_insert _ _ _ (by simp)] at hW
    rw [chSchReadyI_queue_insert _ _ _ (by simp)]
    exact .of_top (Inv.sendSleep (k := (k.setMsg k.currp msg).chSchReadyI t) (hP.chSchReadyI htc)
      (h'.sorted.chSchReadyI t) (h'.sems.sched hsched) hM hW hU hi hne
      ((hsched.runnable_iff hti).2 h'.idle) (h'.early hi))
  · next hs =>
    have hs' : (k.setMsg k.currp msg).state t ≠ .wtmsg := hs
    exact .of_top (Inv.sendSleep (k := k.setMsg k.currp msg) h'.placed h'.sorted h'.sems h'.mtxs
      (h'.waits.sendTo (by simp) (.inl hs') hf) hU hi hne h'.idle (h'.early hi))

theorem sound_takeMsg (h : Inv idle none none k) (hU : k.Unlocked)
    (hq : k.queue (.msg k.currp) ≠ []) : Sound idle k k.takeMsg := by
  unfold takeMsg
  cases hl : k.queue (.msg k.currp) with
  | nil => exact (hq hl).elim
  | cons t l =>
    have hm : t ∈ k.queue (.msg k.currp) := by rw [hl]; exact List.mem_cons_self
    have hs : k.state t = .sndmsgq k.currp := by
      have hs := h.placed.mem_iff.1 hm
      revert hs
      cases k.state t <;> simp [TState.queue]
    have htc := h.placed.ne_currp_of_mem hm
    have hti : idle ≠ t := by
      rintro rfl
      rcases h.idle with hr | hr <;> rw [hs] at hr <;> cases hr
    have hP := h.placed.remove (l := l) (t := t) (q := .msg k.currp) (by rw [hl])
    have hqne : ∀ q, q ≠ .msg k.currp → (k.setQueue (.msg k.currp) l).queue q = k.queue q :=
      fun q hne => queue_setQueue_of_ne hne ..
    have hst : ∀ {u} {st : TState n}, st ≠ .sndmsg → (∀ v, st ≠ .sndmsgq v) →
        (update k.state t .sndmsg u = st ↔ k.state u = st) := by
      intro u st h1 h2
      by_cases hut : u = t
      · rw [hut, update_self, hs]
        exact ⟨fun he => (h1 he.symm).elim, fun he => (h2 _ he.symm).elim⟩
      · rw [update_of_ne hut]
    refine ⟨_, Option.map_eq_some_iff.2 ⟨(t, _), fifo_remove_eq_some.2 ⟨l, hl, rfl⟩, rfl⟩,
      ⟨⟨?_, fun u => ?_⟩, ?_, ?_, ?_, ?_, ?_, h.early, h.isr⟩, fun hT => ?_⟩
    · -- the state names no queue, and the thread is in none
      have hloc : Located (update k.places t none) (k.setQueue (.msg k.currp) l) := hP.located
      rw [show (none : Option (QId n)) = (TState.sndmsg : TState n).queue from rfl,
        ← places_setState] at hloc
      exact ⟨hloc.nodup, hloc.mem⟩
    · show update k.state t .sndmsg u = .current ↔ u = k.currp
      rw [hst (by simp) (by simp)]
      exact h.placed.current u
    · exact (h.sorted.setQueue (q := .msg k.currp) (l := l) (by simp)).congr rfl rfl
    · exact h.sems.congr (fun sp => hqne (.sem sp) (by simp)) rfl
    · exact h.mtxs.congr rfl rfl rfl rfl
        (fun u mp => and_congr_left fun _ => hst (by simp) (by simp)) fun u => hst (by simp) (by simp)
    · exact h.waits.takeMsg h.placed.currp hU rfl hs rfl rfl rfl fun u hu =>
        hqne (.msg u) (by simpa using hu)
    · show (update k.state t .sndmsg idle).Runnable
      rw [update_of_ne hti]
      exact h.idle
    · exact hT.congr (hqne .ready (by simp)) rfl rfl

theorem sound_chMsgWait (h : Inv idle none none k) (hU : k.Unlocked) (hi : k.inIsr = false)
    (hne : k.currp ≠ idle) : Sound idle k k.chMsgWait := by
  unfold chMsgWait
  split
  · next hq =>
    refine .of_top (h.goSleep hU hi hne ((Enqueued.refl h rfl).cont _ _)
      ⟨(by rintro (h | h) <;> cases h), by simp, by simp, by simp, by simp, fun _ => ⟨hq, rfl⟩,
        fun _ _ => rfl, trivial⟩ rfl (.inl ⟨rfl, by simp⟩))
  · next hq => exact sound_takeMsg h hU hq

theorem sound_chMsgRelease (h : Inv idle none none k) (hi : k.inIsr = false)
    (hs : k.state t = .sndmsg) (msg : Int) : Sound idle k (k.chMsgRelease t msg) := by
  have hI : Inv idle (some t) none (k.setRet .void) :=
    (h.setRet .void).free (by rw [show (k.setRet .void).state t = .sndmsg from hs]; rfl)
      (by rw [show (k.setRet .void).state t = .sndmsg from hs]; simp)
  exact ⟨_, rfl, hI.chSchWakeupS (by rw [show (k.setRet .void).state t = .sndmsg from hs]; trivial)
    hi msg, fun hT => Top.chSchWakeupS (k := k.setRet .void) hT t msg⟩

/-! ## Events -/

theorem sleepOk_events {mode : EvtMode} {mask : EventMask} (check b : Bool)
    (hm : ¬ mode.met (k₀.epending k₀.currp) mask = true) :
    SleepOk k₀ (mode.state mask) (some ⟨.events mode mask check, b⟩) := by
  refine ⟨?_, ?_, ?_, fun m he => ?_, fun m he => ?_, ?_, by simp, ?_⟩
  · rintro (h | h) <;> cases mode <;> cases h
  · cases mode <;> simp [EvtMode.state]
  · cases mode <;> simp [EvtMode.state]
  · cases mode <;> cases he <;> simpa [EvtMode.met] using hm
  · cases mode with
    | all => cases he; simpa [EvtMode.met] using hm
    | _ => cases he
  · cases mode <;> simp [EvtMode.state]
  · cases mode with
    | all => exact ⟨_, _, rfl⟩
    | one => exact ⟨_, _, _, rfl, by simp⟩
    | any => exact ⟨_, _, _, rfl, by simp⟩

theorem Inv.setEpending (h : Inv idle none but k) (m : EventMask) :
    Inv idle none but (k.setEpending k.currp m) :=
  ⟨h.placed.congr rfl rfl rfl, h.sorted.congr rfl rfl, h.sems.congr (fun _ => rfl) rfl,
    h.mtxs.still rfl rfl rfl rfl rfl, h.waits.setEpending h.placed.currp m, h.idle, h.early, h.isr⟩

theorem sound_takeEvents (h : Inv idle none none k) (mode : EvtMode) (mask : EventMask) :
    Sound idle k (some (k.takeEvents mode mask)) :=
  ⟨_, rfl, (h.setEpending _).setRet _, fun hT => hT⟩

theorem sound_chEvtGetAndClearEvents (h : Inv idle none none k) (mask : EventMask) :
    Sound idle k (k.chEvtGetAndClearEvents mask) :=
  ⟨_, rfl, (h.setRet _).setEpending _, fun hT => hT⟩

theorem sound_chEvtAddEvents (h : Inv idle none none k) (mask : EventMask) :
    Sound idle k (k.chEvtAddEvents mask) :=
  ⟨_, rfl, (h.setEpending _).setRet _, fun hT => hT⟩

theorem limited_state (mode : EvtMode) (mask : EventMask) :
    (mode.state mask : TState n).Limited := by
  cases mode <;> trivial

theorem sound_chEvtWait (h : Inv idle none none k) (hU : k.Unlocked) (hi : k.inIsr = false)
    (hne : k.currp ≠ idle) (mode : EvtMode) (mask : EventMask) :
    Sound idle k (k.chEvtWait mode mask) := by
  unfold chEvtWait
  split
  · exact sound_takeEvents h mode mask
  · next hm =>
    have hq : (mode.state mask : TState n).queue = none := by cases mode <;> rfl
    exact .of_top (h.goSleep hU hi hne ((Enqueued.refl h hq).cont _ _)
      (sleepOk_events _ _ hm) rfl (.inl ⟨rfl, by simp⟩))

theorem sound_chEvtWaitTimeout (h : Inv idle none none k) (hU : k.Unlocked) (hi : k.inIsr = false)
    (hne : k.currp ≠ idle) (mode : EvtMode) (mask : EventMask) (time : UInt32) :
    Sound idle k (k.chEvtWaitTimeout mode mask time) := by
  unfold chEvtWaitTimeout
  split
  · exact sound_takeEvents h mode mask
  · next hm =>
    split
    · exact .note h rfl
    · next ht =>
      have hq : (mode.state mask : TState n).queue = none := by cases mode <;> rfl
      exact .of_top (h.goSleepTimeout hU hi hne (Enqueued.refl h hq) rfl rfl ht
        (limited_state mode mask) fun b => sleepOk_events _ b hm)

/-- A thread that waits for events is woken up, or none of them is pending yet. -/
theorem soundI_chEvtSignalI (h : Inv idle none none k) (t : Fin n) (mask : EventMask) :
    SoundI idle k (some (k.chEvtSignalI t mask)) := by
  have hself : (k.setEpending t (k.epending t ||| mask)).epending t = k.epending t ||| mask :=
    update_self ..
  have hstay : (∀ w, k.state t = .wtorevt w → (k.epending t ||| mask) &&& w = 0) →
      (∀ w, k.state t = .wtandevt w → (k.epending t ||| mask) &&& w ≠ w) →
      Inv idle none none (k.setEpending t (k.epending t ||| mask)) := fun hor hand =>
    ⟨h.placed.congr rfl rfl rfl, h.sorted.congr rfl rfl, h.sems.congr (fun _ => rfl) rfl,
      h.mtxs.still rfl rfl rfl rfl rfl, h.waits.signal hor hand, h.idle, h.early, h.isr⟩
  have hwake : (∃ w, k.state t = .wtorevt w ∨ k.state t = .wtandevt w) →
      Inv idle none none ((k.setEpending t (k.epending t ||| mask)).readyMsgI t RDY_OK) := by
    rintro ⟨w, hs⟩
    have hI : Inv idle (some t) none (k.setEpending t (k.epending t ||| mask)) :=
      ⟨(h.placed.free (by rcases hs with hs | hs <;> rw [hs] <;> rfl)).congr rfl rfl rfl,
        h.sorted.congr rfl rfl, h.sems.congr (fun _ => rfl) rfl,
        (h.mtxs.free (t := t) (by rcases hs with hs | hs <;> rw [hs] <;> simp)).still rfl rfl rfl
          rfl rfl, h.waits.signalHand t _, h.idle, h.early, h.isr⟩
    refine hI.readyMsgI ?_ RDY_OK
    show (k.state t).Asleep
    rcases hs with hs | hs <;> rw [hs] <;> trivial
  refine ⟨_, rfl, ?_⟩
  unfold chEvtSignalI
  dsimp only
  rw [hself]
  split
  · next w hs =>
    have hs' : k.state t = .wtorevt w := hs
    split
    · exact ⟨hwake ⟨w, .inl hs'⟩, rfl, rfl, rfl⟩
    · next hn =>
      refine ⟨hstay (fun w' he => ?_) (fun w' he => ?_), rfl, rfl, rfl⟩
      · rw [hs'] at he
        cases he
        simpa using hn
      · rw [hs'] at he
        cases he
  · next w hs =>
    have hs' : k.state t = .wtandevt w := hs
    split
    · exact ⟨hwake ⟨w, .inr hs'⟩, rfl, rfl, rfl⟩
    · next hn =>
      refine ⟨hstay (fun w' he => ?_) (fun w' he => ?_), rfl, rfl, rfl⟩
      · rw [hs'] at he
        cases he
      · rw [hs'] at he
        cases he
        exact hn
  · next h1 h2 =>
    exact ⟨hstay (fun w he => (h1 w he).elim) (fun w he => (h2 w he).elim), rfl, rfl, rfl⟩

theorem sound_chEvtSignal (h : Inv idle none none k) (hU : k.Unlocked) (hi : k.inIsr = false)
    (t : Fin n) (mask : EventMask) : Sound idle k (k.chEvtSignal t mask) :=
  (soundI_chEvtSignalI (h.setRet .void) t mask).reschedule hU hi

/-! ## After a switch -/

theorem Inv.disarm (h : Inv idle none none k) (hc : k.cont k.currp = some ⟨rest, timed⟩) :
    Inv idle none none ((k.disarm timed).setCont k.currp none) := by
  have hi : k.inIsr = false := by
    cases hin : k.inIsr with
    | false => rfl
    | true =>
      have hU : k.cont k.currp = none := h.isr hin
      rw [hc] at hU
      cases hU
  have hW := h.waits.disarm h.placed.currp hc
  have hE : DeltaList.Early (k.disarm timed).vtlist := by
    unfold Kern.disarm
    split
    · show DeltaList.Early (k.vtlist.chVTResetI _)
      rw [VTList.chVTResetI_eq h.waits.fits]
      exact (h.early hi).remove
    · exact h.early hi
  revert hW hE
  unfold Kern.disarm
  split <;> intro hW hE <;>
    exact ⟨h.placed.congr rfl rfl rfl, h.sorted.congr rfl rfl, h.sems.congr (fun _ => rfl) rfl,
      h.mtxs.still rfl rfl rfl rfl rfl, hW, h.idle, fun _ => hE, fun _ => update_self ..⟩

theorem sound_resume (h : Inv idle none none k) (hU : ¬ k.Unlocked) : Sound idle k k.resume := by
  obtain ⟨⟨rest, timed⟩, hc⟩ := Option.ne_none_iff_exists'.1 hU
  have hI := h.disarm hc
  have hq : ((k.disarm timed).setCont k.currp none).queue = k.queue := by
    unfold Kern.disarm; split <;> rfl
  have hp : ((k.disarm timed).setCont k.currp none).prio = k.prio := by
    unfold Kern.disarm; split <;> rfl
  have hcur : ((k.disarm timed).setCont k.currp none).currp = k.currp := by
    unfold Kern.disarm; split <;> rfl
  have hU' : ((k.disarm timed).setCont k.currp none).Unlocked := by
    rw [Unlocked, hcur]
    exact update_self ..
  unfold resume
  rw [hc, Option.bind_some]
  have hT : k.Top → ((k.disarm timed).setCont k.currp none).Top :=
    fun hT => hT.congr (by rw [hq]) hp hcur
  have hmain : Sound idle ((k.disarm timed).setCont k.currp none)
      (((k.disarm timed).setCont k.currp none).finish rest) := by
    cases rest with
    | message => exact .note hI rfl
    | take =>
      refine sound_takeMsg hI hU' ?_
      rw [hq, hcur]
      exact h.waits.take _ _ hc (.inr h.placed.currp)
    | events mode mask check =>
      unfold finish
      dsimp only
      split
      · exact .note hI rfl
      · exact sound_takeEvents hI mode mask
  obtain ⟨k', he, hI', hT'⟩ := hmain
  exact ⟨k', he, hI', fun ht => hT' (hT ht)⟩

/-! ## Threads -/

theorem sound_chThdSleep (h : Inv idle none none k) (hU : k.Unlocked) (hi : k.inIsr = false)
    (hne : k.currp ≠ idle) (ht : time ≠ TIME_IMMEDIATE) : Sound idle k (k.chThdSleep time) :=
  .of_top (h.goSleepTimeout hU hi hne (Enqueued.refl h rfl) rfl rfl ht trivial
    fun _ => .of_message trivial (by simp) (by simp) (by simp))

theorem sound_suspend (h : Inv idle none none k) (hU : k.Unlocked) (hi : k.inIsr = false)
    (hne : k.currp ≠ idle) : Sound idle k k.suspend :=
  .of_top (h.goSleep hU hi hne ((Enqueued.refl h rfl).cont _ _)
    (.of_message trivial (by simp) (by simp) (by simp)) rfl (.inl ⟨rfl, by simp⟩))

theorem sound_qwait (h : Inv idle none none k) (hU : k.Unlocked) (hi : k.inIsr = false)
    (hne : k.currp ≠ idle) (qp : Nat) (time : UInt32) : Sound idle k (k.qwait qp time) := by
  unfold qwait
  split
  · exact .note h rfl
  · next ht =>
    have hk : Enqueued (.wtqueue qp) k (k.queue_insert k.currp (.io qp)) :=
      Enqueued.object h k.cnt ⟨by simp, by simp, by simp⟩ rfl
        (h.sems.congr (fun sp => queue_setQueue_of_ne (by simp) ..) rfl)
    exact .of_top (h.goSleepTimeout hU hi hne hk rfl rfl ht trivial
      fun _ => .of_message trivial (by simp) (by simp) (by simp))

theorem Inv.prio_pos (h : Inv idle none but k) : 0 < k.prio k.currp :=
  Nat.lt_of_lt_of_le (h.mtxs.pos _ (by rw [h.placed.currp]; simp)) (h.mtxs.inherits.real_le _)

theorem Inv.pick_of_le (h : Inv idle none but k) (hf : k.prio k.currp ≤ k.firstprio) :
    ∃ k', k.pick = some k' := by
  have hne : k.queue .ready ≠ [] := fun he => by
    rw [firstprio, he] at hf
    have := h.prio_pos
    simp only [List.head?_nil, Option.elim_none] at hf
    omega
  obtain ⟨x, hx⟩ := List.exists_mem_of_ne_nil _ hne
  exact Inv.pick_isSome hx

theorem sound_chThdYield (h : Inv idle none none k) (hU : k.Unlocked) (hi : k.inIsr = false) :
    Sound idle k k.chThdYield := by
  have h' : Inv idle none none (k.setRet .void) := h.setRet _
  unfold chThdYield
  obtain ⟨k', he⟩ : ∃ k', (k.setRet .void).chSchDoYieldS = some k' := by
    unfold Kern.chSchDoYieldS
    split
    · next hf =>
      obtain ⟨k₁, h1⟩ := h'.pick_of_le hf
      exact ⟨_, by rw [Kern.chSchDoRescheduleBehind, h1]; rfl⟩
    · exact ⟨_, rfl⟩
  have hin : k'.inIsr = k.inIsr := by
    unfold Kern.chSchDoYieldS at he
    split at he
    · obtain ⟨k₁, h1, rfl⟩ := Option.map_eq_some_iff.1 he
      obtain ⟨x, l, -, rfl⟩ := pick_eq_some.1 h1
      rfl
    · cases he; rfl
  obtain ⟨hS, hT⟩ := h'.sorted.chSchDoYieldS he
  exact .of_top ⟨k', he, h'.switch (Sched.chSchDoYieldS h'.placed he) (h'.placed.chSchDoYieldS he)
    hS hU (hin.trans hi) (h'.early hi), hT⟩

theorem Mutexes.threadInit (h : Mutexes none none k) (hf : k.state t = .final) {p : Nat}
    (hp : 0 < p) : Mutexes (some t) none (k.threadInit t p) := by
  have hempty := h.final t hf
  have hlist : (k.threadInit t p).mtxlist = k.mtxlist := by
    show update k.mtxlist t [] = _
    rw [← hempty, update_eq_self]
  have hwait : (k.threadInit t p).waitFor (some t) = k.waitFor none := by
    refine waitFor_congr rfl fun u mp => ?_
    show update k.state t .suspended u = _ ∧ _ ↔ _
    by_cases hut : u = t
    · subst hut
      rw [update_self, hf]
      simp
    · rw [update_of_ne hut]
      simp [Ne.symm hut]
  have hno : ∀ {w u}, k.waitFor none w = some u → w ≠ t ∧ u ≠ t := by
    intro w u hw
    obtain ⟨-, mp, hs, ho⟩ := waitFor_eq_some.1 hw
    refine ⟨?_, ?_⟩
    · rintro rfl
      rw [hf] at hs
      cases hs
    · rintro rfl
      rw [h.owns, hempty] at ho
      cases ho
  refine ⟨fun mp u => ?_, fun u => ?_, fun u mp hs ho => ?_, ?_, fun u hu => ?_, fun u hu => ?_⟩
  · rw [hlist]; exact h.owns mp u
  · rw [hlist]; exact h.nodup u
  · have hut : u ≠ t := fun he => ho (by rw [he])
    have hs' : k.state u = .wtmtx mp := by rw [← hs]; exact (update_of_ne hut ..).symm
    exact h.owned u mp hs' (by simp)
  · rw [hwait]
    refine ⟨fun u => ?_, fun {w u} hw => ?_, fun u _ => ?_⟩
    · show update k.realprio t p u ≤ update k.prio t p u
      by_cases hut : u = t
      · rw [hut, update_self, update_self]
      · rw [update_of_ne hut, update_of_ne hut]
        exact h.inherits.real_le u
    · show update k.prio t p w ≤ update k.prio t p u
      rw [update_of_ne (hno hw).1, update_of_ne (hno hw).2]
      exact h.inherits.wait_le hw
    · show ∃ w, WaitsFor (k.waitFor none) w u ∧ update k.realprio t p w = update k.prio t p u
      by_cases hut : u = t
      · exact ⟨u, .refl, by rw [hut, update_self, update_self]⟩
      · obtain ⟨w, hw, hr⟩ := h.inherits.attained u (by simp)
        refine ⟨w, hw, ?_⟩
        have hwt : w ≠ t := by
          rintro rfl
          rcases Relation.ReflTransGen.cases_head hw with he | ⟨v, hv, -⟩
          · exact hut he.symm
          · exact (hno hv).1 rfl
        rw [update_of_ne hwt, update_of_ne hut, hr]
  · rw [hlist]
    by_cases hut : u = t
    · rw [hut]; exact hempty
    · exact h.final u (by rw [← hu]; exact (update_of_ne hut ..).symm)
  · show 0 < update k.realprio t p u
    by_cases hut : u = t
    · rw [hut, update_self]; exact hp
    · rw [update_of_ne hut]
      refine h.pos u fun he => hu ?_
      rw [← he]
      exact update_of_ne hut ..

theorem Inv.threadInit (h : Inv idle none none k) (hf : k.state t = .final) {p : Nat}
    (hp : 0 < p) (hi : k.inIsr = false) : Inv idle (some t) none (k.threadInit t p) := by
  have hqueue : (k.threadInit t p).queue = k.queue := by
    show update k.queue (.msg t) [] = _
    rw [← h.waits.final t hf, update_eq_self]
  have hn : ∀ q, t ∉ k.queue q := fun q hm => by
    have := h.placed.mem_iff.1 hm
    rw [hf] at this
    cases this
  have hti : idle ≠ t := by
    rintro rfl
    rcases h.idle with hr | hr <;> rw [hf] at hr <;> cases hr
  have htc : t ≠ k.currp := h.placed.ne_currp (by rw [hf]; simp)
  refine ⟨⟨⟨by rw [hqueue]; exact h.placed.located.nodup, fun q u => ?_⟩, fun u => ?_⟩, ?_,
    h.sems.congr (fun sp => by rw [hqueue]) rfl, h.mtxs.threadInit hf hp,
    (h.waits.threadInit hf p).weaken _, ?_, h.early,
    fun hi' => by rw [show (k.threadInit t p).inIsr = k.inIsr from rfl, hi] at hi'; cases hi'⟩
  · rw [hqueue]
    show _ ↔ update (k.threadInit t p).places t none u = some q
    by_cases hut : u = t
    · rw [hut, update_self]
      exact ⟨fun hm => (hn q hm).elim, fun he => (nomatch he)⟩
    · rw [update_of_ne hut, h.placed.mem_iff]
      show _ ↔ (update k.state t .suspended u).queue = some q
      rw [update_of_ne hut]
  · show update k.state t .suspended u = .current ↔ u = k.currp
    by_cases hut : u = t
    · rw [hut, update_self]
      exact ⟨fun he => (nomatch he), fun he => (htc he).elim⟩
    · rw [update_of_ne hut]
      exact h.placed.current u
  · exact (h.sorted.setPrio (hn _) (fun _ => hn _) p).congr hqueue rfl
  · show (update k.state t .suspended idle).Runnable
    rw [update_of_ne hti]
    exact h.idle

theorem sound_chThdCreateStatic (h : Inv idle none none k) (hi : k.inIsr = false)
    (hf : k.state t = .final) {p : Nat} (hp : 0 < p) :
    Sound idle k (k.chThdCreateStatic t p) := by
  have hI := (h.threadInit hf hp hi).setRet (.thread t)
  have hn : ∀ q, t ∉ k.queue q := fun q hm => by
    have := h.placed.mem_iff.1 hm
    rw [hf] at this
    cases this
  have htc : t ≠ k.currp := h.placed.ne_currp (by rw [hf]; simp)
  have hs : ((k.threadInit t p).setRet (.thread t)).state t = .suspended := update_self ..
  refine ⟨_, rfl, hI.chSchWakeupS (by rw [hs]; trivial) hi RDY_OK, fun hT =>
    Top.chSchWakeupS (fun u hu => ?_) t RDY_OK⟩
  have hu' : u ∈ k.queue .ready := by
    have hu' : u ∈ update k.queue (.msg t) [] .ready := hu
    rwa [update_of_ne (by simp)] at hu'
  show update k.prio t p u ≤ update k.prio t p k.currp
  rw [update_of_ne (fun he : u = t => hn _ (he ▸ hu')), update_of_ne htc.symm]
  exact hT u hu'

end Kern

end RobotPws.Kernel
