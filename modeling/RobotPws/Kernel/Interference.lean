import RobotPws.Kernel.Footprint
import RobotPws.Kernel.Safety

/-!
# No step interferes with another object

Each step touches only the objects its label names (`touch_step`). So a thread that is asleep goes on
sleeping until an operation on the object it waits for, or until its timer expires
(`run_asleep`).
-/

namespace RobotPws.Kernel

open RobotPws.Lib Function

variable {n : Nat}

namespace Kern

variable {idle : Fin n} {k k' k'' k₁ : Kern n} {t u : Fin n} {st : TState n} {q : QId n}
  {o o' : List (Obj n)} {x : Obj n} {sp qp : Nat} {time : UInt32} {rest : Rest}

/-! ## The services -/

theorem object_of_mem (hP : Placed none k) (hm : t ∈ k.queue q) :
    (k.state t).object t = q.object := by
  have hs := hP.mem_iff.1 hm
  revert hs
  cases k.state t <;> rintro ⟨⟩ <;> rfl

/-- The running thread goes to sleep after what has been done first. -/
theorem Touch.sleep (hP : Placed none k) (hT : Touch o k k₁) (ho : .thread k.currp ∈ o)
    (hq : k₁.queue .ready = k.queue .ready) (hs : k₁.state = k.state) (hc : k₁.currp = k.currp)
    (e : k₁.chSchGoSleepS st = some k') : Touch o k k' := by
  refine hT.trans (Touch.chSchGoSleepS (by rw [hc]; exact ho) (by rw [hs, hc]; exact hP.currp) ?_ e)
  rw [hq, hs, hc]
  exact fun u hu => hP.ready_mem hu

theorem Touch.sleepTimeout (hP : Placed none k) (hT : Touch o k k₁) (ho : .thread k.currp ∈ o)
    (ht : .timer k.currp ∈ o) (hq : k₁.queue .ready = k.queue .ready) (hs : k₁.state = k.state)
    (hc : k₁.currp = k.currp) (e : k₁.chSchGoSleepTimeoutS st time rest = some k') :
    Touch o k k' := by
  unfold chSchGoSleepTimeoutS at e
  split at e
  · refine Touch.sleep hP ((hT.trans (Touch.setTimers fun _ u hu => ?_)).trans
      (Touch.setCont _ (by rw [hc]; exact ho))) ho hq hs hc e
    refine DeltaList.timeLeft_insert_of_ne ?_ _
    rintro ⟨⟩
    rw [hc] at hu
    exact hu ht
  · exact Touch.sleep hP (hT.trans (Touch.setCont _ (by rw [hc]; exact ho))) ho hq hs hc e

theorem touch_chSemWait (hP : Placed none k) (hc : .thread k.currp ∈ o) (hs : .sem sp ∈ o)
    (e : k.chSemWait sp = some k') : Touch o k k' := by
  unfold chSemWait at e
  dsimp only at e
  have h1 : Touch o k (k.setCnt sp (k.cnt sp - 1)) := .setCnt _ hs
  split at e
  · refine Touch.sleep hP ((h1.trans (.setQueue _ ?_ (by simp))).trans (.setCont _ hc)) hc
      (queue_setQueue_of_ne (by simp) ..) rfl rfl e
    rintro _ ⟨⟩
    exact hs
  · cases e
    exact h1.trans (.setRet _ hc)

theorem touch_chSemWaitTimeout (hP : Placed none k) (hc : .thread k.currp ∈ o)
    (ht : .timer k.currp ∈ o) (hs : .sem sp ∈ o) (e : k.chSemWaitTimeout sp time = some k') :
    Touch o k k' := by
  unfold chSemWaitTimeout at e
  dsimp only at e
  have h1 : Touch o k (k.setCnt sp (k.cnt sp - 1)) := .setCnt _ hs
  split at e
  · split at e
    · cases e
      exact (h1.trans (.setCnt _ hs)).trans (.setRet _ hc)
    · refine Touch.sleepTimeout hP (h1.trans (.setQueue _ ?_ (by simp))) hc ht
        (queue_setQueue_of_ne (by simp) ..) rfl rfl e
      rintro _ ⟨⟩
      exact hs
  · cases e
    exact h1.trans (.setRet _ hc)

theorem Touch.setSem (l : List (Fin n)) (hs : .sem sp ∈ o) :
    Touch o k (k.setQueue (.sem sp) l) :=
  .setQueue l (by rintro _ ⟨⟩; exact hs) (by simp)

theorem touch_chSemSignal (hP : Placed none k) (hc : .thread k.currp ∈ o) (hs : .sem sp ∈ o)
    (e : k.chSemSignal sp = some k') : Touch o k k' := by
  unfold chSemSignal at e
  dsimp only at e
  have h1 : Touch o k ((k.setCnt sp (k.cnt sp + 1)).setRet .void) :=
    (Touch.setCnt _ hs).trans (.setRet _ hc)
  split at e
  · obtain ⟨⟨t, k₁⟩, he, rfl⟩ := Option.map_eq_some_iff.1 e
    obtain ⟨l, hq, rfl⟩ := fifo_remove_eq_some.1 he
    have hm : t ∈ k.queue (.sem sp) := by rw [show k.queue (.sem sp) = t :: l from hq]; simp
    exact (h1.trans (.setSem l hs)).trans
      (.chSchWakeupS _ hP.currp hs (object_of_mem hP hm))
  · cases e
    exact h1

theorem touch_chSemSignalI (hP : Placed none k) (hs : .sem sp ∈ o)
    (e : k.chSemSignalI sp = some k') : Touch o k k' := by
  unfold chSemSignalI at e
  dsimp only at e
  have h1 : Touch o k (k.setCnt sp (k.cnt sp + 1)) := .setCnt _ hs
  split at e
  · obtain ⟨⟨t, k₁⟩, he, rfl⟩ := Option.map_eq_some_iff.1 e
    obtain ⟨l, hq, rfl⟩ := fifo_remove_eq_some.1 he
    have hm : t ∈ k.queue (.sem sp) := by rw [show k.queue (.sem sp) = t :: l from hq]; simp
    exact (h1.trans (.setSem l hs)).trans (.readyMsgI _ hs (object_of_mem hP hm))
  · cases e
    exact h1

theorem touch_resetLoop (m : Nat) (hP : Placed none k) (hs : .sem sp ∈ o)
    (e : resetLoop sp m k = some k') : Touch o k k' := by
  induction m generalizing k with
  | zero => cases e; exact .refl o _
  | succ m ih =>
    obtain ⟨⟨t, k₁⟩, he, e⟩ := Option.bind_eq_some_iff.1 e
    obtain ⟨l, hq, rfl⟩ := lifo_remove_eq_some.1 he
    have hm : t ∈ k.queue (.sem sp) := by rw [hq]; simp
    have hp : (k.queue (.sem sp)).Perm (t :: l) := by
      rw [hq]; exact List.perm_append_singleton ..
    exact ((Touch.setSem l hs).trans (.readyMsgI _ hs (object_of_mem hP hm))).trans
      (ih ((hP.remove hp).readyMsgI (hP.ne_currp_of_mem hm) _) e)

theorem touch_chSemResetI (hP : Placed none k) (hs : .sem sp ∈ o) {c : Nat}
    (e : k.chSemResetI sp c = some k') : Touch o k k' :=
  (Touch.setCnt _ hs).trans (touch_resetLoop _ (hP.congr rfl rfl rfl) hs e)

theorem touch_chSemReset (h : Inv idle none none k) (hc : .thread k.currp ∈ o) (hs : .sem sp ∈ o)
    {c : Nat} (e : k.chSemReset sp c = some k') : Touch o k k' := by
  obtain ⟨k₁, he, e⟩ := Option.bind_eq_some_iff.1 e
  have h' : Inv idle none none (k.setRet .void) := h.setRet _
  obtain ⟨k₂, he', hI, -⟩ := soundI_chSemResetI h' sp c
  cases he'.symm.trans he
  exact ((Touch.setRet _ hc).trans (touch_chSemResetI h'.placed hs he)).trans
    (.chSchRescheduleS e hI.placed)

/-- What `chSemSignalWait` does after the signal. -/
def waitReschedule (sp : Nat) (k : Kern n) : Option (Kern n) :=
  if k.cnt sp - 1 < 0 then
    (((k.setCnt sp (k.cnt sp - 1)).queue_insert k.currp (.sem sp)).setCont k.currp
      (some ⟨.message, false⟩)).chSchGoSleepS (.wtsem sp)
  else ((k.setCnt sp (k.cnt sp - 1)).setRet (.msg RDY_OK)).chSchRescheduleS

theorem chSemSignalWait_eq (sps spw : Nat) (k : Kern n) :
    k.chSemSignalWait sps spw = (k.chSemSignalI sps).bind (waitReschedule spw) := by
  unfold chSemSignalWait waitReschedule
  simp only [cnt_setCnt]
  rfl

theorem touch_waitReschedule (hP : Placed none k) (hc : .thread k.currp ∈ o) (hs : .sem sp ∈ o)
    (e : k.waitReschedule sp = some k') : Touch o k k' := by
  have h1 : Touch o k (k.setCnt sp (k.cnt sp - 1)) := .setCnt _ hs
  unfold waitReschedule at e
  split at e
  · refine Touch.sleep hP ((h1.trans (.setQueue _ ?_ (by simp))).trans (.setCont _ hc)) hc
      (queue_setQueue_of_ne (by simp) ..) rfl rfl e
    rintro _ ⟨⟩
    exact hs
  · exact (h1.trans (.setRet _ hc)).trans (.chSchRescheduleS e (hP.congr rfl rfl rfl))

theorem touch_chSemSignalWait (h : Inv idle none none k) (hc : .thread k.currp ∈ o) {sps spw : Nat}
    (h1 : .sem sps ∈ o) (h2 : .sem spw ∈ o) (e : k.chSemSignalWait sps spw = some k') :
    Touch o k k' := by
  rw [chSemSignalWait_eq] at e
  obtain ⟨k₁, he, e⟩ := Option.bind_eq_some_iff.1 e
  obtain ⟨k₂, he', hI, -, hcur, -⟩ := soundI_chSemSignalI h sps
  cases he'.symm.trans he
  exact (touch_chSemSignalI h.placed h1 he).trans
    (touch_waitReschedule hI.placed (by rw [hcur]; exact hc) h2 e)

/-! ### Mutexes -/

theorem inherit_fields {fuel : Nat} (e : k.inherit fuel t = some k') :
    k'.ret = k.ret ∧ k'.rdymsg = k.rdymsg := by
  have hd : ∀ (k : Kern n) (t : Fin n), (k.dequeue t).ret = k.ret ∧ (k.dequeue t).rdymsg = k.rdymsg :=
    fun k t => by unfold dequeue; split <;> exact ⟨rfl, rfl⟩
  induction fuel generalizing t k with
  | zero => cases e
  | succ fuel ih =>
    rw [inherit] at e
    split at e
    · dsimp only at e
      split at e
      · obtain ⟨u, -, e⟩ := Option.bind_eq_some_iff.1 e
        obtain ⟨h1, h2⟩ := ih e
        obtain ⟨h3, h4⟩ := hd (k.setPrio t (k.prio k.currp)) t
        exact ⟨h1.trans h3, h2.trans h4⟩
      · cases e
        exact hd (k.setPrio t (k.prio k.currp)) t
      · cases e
        exact ⟨rfl, rfl⟩
    · cases e
      exact ⟨rfl, rfl⟩

theorem touch_chMtxLock (h : Inv idle none none k) (hc : .thread k.currp ∈ o) {mp : Nat}
    (e : k.chMtxLock mp = some k') : Touch o k k' := by
  have h' : Inv idle none none (k.setRet .void) := h.setRet _
  unfold chMtxLock at e
  dsimp only at e
  split at e
  · next t ho =>
    obtain ⟨k₁, he, e⟩ := Option.bind_eq_some_iff.1 e
    obtain ⟨hret, hrdy⟩ := inherit_fields he
    obtain ⟨hb, hP, -, -⟩ := (inherit_spec (k.waitFor none) h'.placed h'.sorted
      (fun t mp hs => h'.mtxs.owned t mp hs (by simp)) fun _ _ => rfl).2 k₁ he
    have hT : Touch o (k.setRet .void) k₁ :=
      ⟨fun sp _ => ⟨hb.queue _ (by simp) (by simp), by rw [hb.cnt]⟩,
        fun t _ => hb.queue _ (by simp) (by simp), fun _ t _ => by rw [timeLeft, hb.vtlist]; rfl,
        fun t _ => by rw [hb.epending], fun t _ => by rw [hb.cont], fun t _ => by rw [hret],
        fun t _ hr => ⟨by rw [hb.state]; exact hr, by rw [hrdy]⟩, fun t _ _ _ _ => by rw [hb.state]⟩
    have hc₁ : .thread k₁.currp ∈ o := by rw [hb.currp]; exact hc
    refine ((Touch.setRet _ hc).trans hT).trans (Touch.sleep hP (.setQueue _ (by simp) (by simp)) hc₁
      (queue_setQueue_of_ne (by simp) ..) rfl rfl e)
  · cases e
    exact (Touch.setRet _ hc).trans (.same rfl rfl rfl rfl rfl rfl rfl rfl)

theorem touch_chMtxTryLock (hc : .thread k.currp ∈ o) {mp : Nat} (e : k.chMtxTryLock mp = some k') :
    Touch o k k' := by
  unfold chMtxTryLock at e
  split at e
  · cases e
    exact .setRet _ hc
  · cases e
    exact (Touch.same rfl rfl rfl rfl rfl rfl rfl rfl : Touch o k (k.giveMtx k.currp mp)).trans
      (.setRet _ hc)

theorem Touch.handOver {ump : Nat} (e : k.handOver ump = some (t, k')) (hP : Placed none k) :
    Touch o k k' ∧ (k'.state t).object t = some (.mtx ump) := by
  obtain ⟨l, hq, rfl⟩ := handOver_eq_some.1 e
  have hm : t ∈ k.queue (.mtx ump) := by rw [hq]; exact List.mem_cons_self
  have ho := object_of_mem hP hm
  exact ⟨(Touch.setQueue l (by simp) (by simp)).trans (.same rfl rfl rfl rfl rfl rfl rfl rfl), ho⟩

theorem touch_chMtxUnlock (hP : Placed none k) (hc : .thread k.currp ∈ o)
    (hm : ∀ ump ∈ (k.mtxlist k.currp).head?, .mtx ump ∈ o) (e : k.chMtxUnlock = some k') :
    Touch o k k' := by
  unfold chMtxUnlock at e
  split at e
  · cases e
  · next ump l hl =>
    rw [hl] at hm
    have h1 : Touch o k ((k.setMtxlist k.currp l).setRet (.mutex ump)) :=
      (Touch.setMtxlist _ _).trans (.setRet _ hc)
    dsimp only at e
    split at e
    · obtain ⟨⟨t, k₁⟩, he, rfl⟩ := Option.map_eq_some_iff.1 e
      obtain ⟨h2, h3⟩ := Touch.handOver (o := o) he (hP.congr rfl rfl rfl)
      have hcur : k₁.state k₁.currp = .current := by
        obtain ⟨_, -, rfl⟩ := handOver_eq_some.1 he
        exact hP.currp
      exact ((h1.trans (.setPrio _ _)).trans h2).trans
        (.chSchWakeupS _ hcur (hm ump rfl) h3)
    · cases e
      exact h1.trans (.same rfl rfl rfl rfl rfl rfl rfl rfl)

theorem touch_unlockLoop {c : Fin n} (ml : List Nat) (hP : Placed none k)
    (hm : ∀ ump ∈ ml, .mtx ump ∈ o) :
    Touch o k (unlockLoop c ml k) ∧ Placed none (unlockLoop c ml k) ∧
      (unlockLoop c ml k).currp = k.currp := by
  induction ml generalizing k with
  | nil => exact ⟨.refl o k, hP, rfl⟩
  | cons ump ml ih =>
    have hone : Touch o k (k.unlockOne c ump ml) ∧ Placed none (k.unlockOne c ump ml) ∧
        (k.unlockOne c ump ml).currp = k.currp := by
      have h1 : Touch o k (k.setMtxlist c ml) := .setMtxlist c ml
      have hP1 : Placed none (k.setMtxlist c ml) := hP.congr rfl rfl rfl
      unfold Kern.unlockOne
      dsimp only
      split
      · next t k₁ he =>
        obtain ⟨h2, h3⟩ := Touch.handOver (o := o) he hP1
        obtain ⟨l, hq, rfl⟩ := handOver_eq_some.1 he
        have hm' : t ∈ (k.setMtxlist c ml).queue (.mtx ump) := by
          rw [hq]; exact List.mem_cons_self
        refine ⟨(h1.trans h2).trans (.chSchReadyI _ (hm ump List.mem_cons_self) h3), ?_, rfl⟩
        have hP2 := hP1.remove (l := l) (t := t) (q := .mtx ump) (by rw [hq])
        exact Placed.chSchReadyI (hP2.congr rfl rfl rfl) (hP1.ne_currp_of_mem hm')
      · exact ⟨h1.trans (.same rfl rfl rfl rfl rfl rfl rfl rfl), hP1.congr rfl rfl rfl, rfl⟩
    obtain ⟨h1, h2, h3⟩ := hone
    obtain ⟨h4, h5, h6⟩ := ih h2 fun m hm' => hm m (List.mem_cons_of_mem _ hm')
    exact ⟨h1.trans h4, h5, h6.trans h3⟩

theorem touch_chMtxUnlockAll (hP : Placed none k) (hc : .thread k.currp ∈ o)
    (hm : ∀ ump ∈ k.mtxlist k.currp, .mtx ump ∈ o) (e : k.chMtxUnlockAll = some k') :
    Touch o k k' := by
  unfold chMtxUnlockAll at e
  dsimp only at e
  have h1 : Touch o k (k.setRet .void) := .setRet _ hc
  split at e
  · obtain ⟨h2, h3, h4⟩ := touch_unlockLoop (c := k.currp) (o := o) (k := k.setRet .void)
      (k.mtxlist k.currp) (hP.congr rfl rfl rfl) hm
    exact ((h1.trans h2).trans (.setPrio _ _)).trans
      (.chSchRescheduleS e (h3.congr rfl rfl rfl))
  · cases e
    exact h1

/-! ### Messages -/

theorem Touch.setInbox (l : List (Fin n)) (ht : .inbox t ∈ o) :
    Touch o k (k.setQueue (.msg t) l) :=
  .setQueue l (by simp) (by rintro _ ⟨⟩; exact ht)

theorem touch_chMsgSend (hP : Placed none k) (hc : .thread k.currp ∈ o) (ht : .inbox t ∈ o)
    {msg : Int} (e : k.chMsgSend t msg = some k') : Touch o k k' := by
  unfold chMsgSend at e
  dsimp only at e
  have h1 : Touch o k (((k.setMsg k.currp msg).setCont k.currp (some ⟨.message, false⟩)).queue_insert
      k.currp (.msg t)) :=
    ((Touch.setMsg _ _).trans (.setCont _ hc)).trans (.setInbox _ ht)
  split at e
  · next hs =>
    have hs' : k.state t = .wtmsg := hs
    have htc : t ≠ k.currp := hP.ne_currp (by rw [hs']; simp)
    have h2 := h1.trans (.chSchReadyI t ht (by rw [hs]; rfl))
    refine h2.trans (Touch.chSchGoSleepS hc ?_ (fun u hu => ?_) e)
    · show update k.state t .ready k.currp = .current
      rw [update_of_ne htc.symm]
      exact hP.currp
    · have hu' : u ∈ insertBehind k.prio t (k.queue .ready) := by
        have hq : ((((k.setMsg k.currp msg).setCont k.currp (some ⟨.message, false⟩)).queue_insert
            k.currp (.msg t)).chSchReadyI t).queue .ready = insertBehind k.prio t (k.queue .ready) := by
          rw [chSchReadyI_queue_insert _ _ _ (by simp)]
          exact (queue_setQueue_of_ne (by simp) ..).trans (queue_setQueue_self ..)
        rwa [← hq]
      show update k.state t .ready u = .ready ∧ u ≠ k.currp
      rcases mem_insertBehind.1 hu' with rfl | hu'
      · exact ⟨update_self .., htc⟩
      · obtain ⟨hr, huc⟩ := hP.ready_mem hu'
        refine ⟨?_, huc⟩
        by_cases hut : u = t
        · rw [hut]; exact update_self ..
        · rw [update_of_ne hut]; exact hr
  · exact Touch.sleep hP h1 hc (queue_setQueue_of_ne (by simp) ..) rfl rfl e

theorem touch_takeMsg (hP : Placed none k) (hc : .thread k.currp ∈ o) (ht : .inbox k.currp ∈ o)
    (e : k.takeMsg = some k') : Touch o k k' := by
  obtain ⟨⟨t, k₁⟩, he, rfl⟩ := Option.map_eq_some_iff.1 e
  obtain ⟨l, hq, rfl⟩ := fifo_remove_eq_some.1 he
  have hm : t ∈ k.queue (.msg k.currp) := by rw [hq]; exact List.mem_cons_self
  exact ((Touch.setInbox l ht).trans (.setState _ ht (object_of_mem hP hm))).trans (.setRet _ hc)

theorem touch_chMsgWait (hP : Placed none k) (hc : .thread k.currp ∈ o) (ht : .inbox k.currp ∈ o)
    (e : k.chMsgWait = some k') : Touch o k k' := by
  unfold chMsgWait at e
  split at e
  · exact Touch.sleep hP (.setCont _ hc) hc rfl rfl rfl e
  · exact touch_takeMsg hP hc ht e

theorem touch_chMsgRelease (hP : Placed none k) (hc : .thread k.currp ∈ o) (ht : .answer t ∈ o)
    (hs : k.state t = .sndmsg) {msg : Int} (e : k.chMsgRelease t msg = some k') : Touch o k k' := by
  cases e
  have ho : (k.state t).object t = some (.answer t) := by rw [hs]; rfl
  exact (Touch.setRet _ hc).trans (.chSchWakeupS _ hP.currp ht ho)

/-! ### Events -/

theorem touch_takeEvents (mode : EvtMode) (mask : EventMask) (hc : .thread k.currp ∈ o)
    (he : .events k.currp ∈ o) : Touch o k (k.takeEvents mode mask) :=
  (Touch.setEpending _ he).trans (.setRet _ hc)

theorem touch_chEvtWait (hP : Placed none k) (hc : .thread k.currp ∈ o)
    (he : .events k.currp ∈ o) {mode : EvtMode} {mask : EventMask}
    (e : k.chEvtWait mode mask = some k') : Touch o k k' := by
  unfold chEvtWait at e
  split at e
  · cases e
    exact touch_takeEvents mode mask hc he
  · exact Touch.sleep hP (.setCont _ hc) hc rfl rfl rfl e

theorem touch_chEvtWaitTimeout (hP : Placed none k) (hc : .thread k.currp ∈ o)
    (he : .events k.currp ∈ o) (ht : .timer k.currp ∈ o) {mode : EvtMode} {mask : EventMask}
    (e : k.chEvtWaitTimeout mode mask time = some k') : Touch o k k' := by
  unfold chEvtWaitTimeout at e
  split at e
  · cases e
    exact touch_takeEvents mode mask hc he
  · split at e
    · cases e
      exact .setRet _ hc
    · exact Touch.sleepTimeout hP (.refl o k) hc ht rfl rfl rfl e

theorem touch_chEvtSignalI (ht : .events t ∈ o) (mask : EventMask) :
    Touch o k (k.chEvtSignalI t mask) := by
  have h1 : Touch o k (k.setEpending t (k.epending t ||| mask)) := .setEpending _ ht
  unfold chEvtSignalI
  dsimp only
  split
  · next w hs =>
    split
    · exact h1.trans (.readyMsgI _ ht (by rw [hs]; rfl))
    · exact h1
  · next w hs =>
    split
    · exact h1.trans (.readyMsgI _ ht (by rw [hs]; rfl))
    · exact h1
  · exact h1

theorem touch_chEvtSignal (h : Inv idle none none k) (hc : .thread k.currp ∈ o)
    (ht : .events t ∈ o) {mask : EventMask} (e : k.chEvtSignal t mask = some k') :
    Touch o k k' := by
  obtain ⟨k₁, he, hI, -⟩ := soundI_chEvtSignalI (h.setRet .void) t mask
  cases he
  exact ((Touch.setRet _ hc).trans (touch_chEvtSignalI ht mask)).trans
    (.chSchRescheduleS e hI.placed)

/-! ### Threads -/

theorem touch_chThdCreateStatic (hP : Placed none k) (hc : .thread k.currp ∈ o)
    (hf : k.state t = .final) (ht : .thread t ∈ o) (he : .events t ∈ o) (hi : .inbox t ∈ o)
    (hd : .driver t ∈ o) {p : Nat} (e : k.chThdCreateStatic t p = some k') : Touch o k k' := by
  cases e
  have h1 : Touch o k (k.threadInit t p) :=
    { Touch.refl o k with
      sem := fun sp _ => ⟨queue_setQueue_of_ne (q := .msg t) (by simp) [] k, rfl⟩
      inbox := fun u hu =>
        queue_setQueue_of_ne (q := .msg t) (by rintro ⟨⟩; exact hu hi) [] k
      events := fun u hu => update_of_ne (by rintro rfl; exact hu he) ..
      cont := fun u hu => update_of_ne (by rintro rfl; exact hu ht) ..
      runnable := fun u hu hr => by
        refine ⟨?_, rfl⟩
        show (update k.state t .suspended u).Runnable
        rw [update_of_ne (by rintro rfl; exact hu ht)]
        exact hr
      asleep := fun u x hx hn _ => by
        refine update_of_ne ?_ ..
        rintro rfl
        rw [hf] at hx
        cases hx
        exact hn ht }
  have htc : t ≠ k.currp := hP.ne_currp (by rw [hf]; simp)
  have hs : (k.threadInit t p).state t = .suspended := update_self ..
  have hcur : ((k.threadInit t p).setRet (.thread t)).state k.currp = .current := by
    show update k.state t .suspended k.currp = .current
    rw [update_of_ne htc.symm]
    exact hP.currp
  have ho : (((k.threadInit t p).setRet (.thread t)).state t).object t = some (.driver t) := by
    show ((k.threadInit t p).state t).object t = _
    rw [hs]
    rfl
  exact (h1.trans (.setRet _ hc)).trans (.chSchWakeupS _ hcur hd ho)

theorem touch_suspend (hP : Placed none k) (hc : .thread k.currp ∈ o) (e : k.suspend = some k') :
    Touch o k k' :=
  Touch.sleep hP (.setCont _ hc) hc rfl rfl rfl e

theorem touch_chThdYield (hP : Placed none k) (hc : .thread k.currp ∈ o)
    (e : k.chThdYield = some k') : Touch o k k' :=
  (Touch.setRet _ hc).trans (.chSchDoYieldS (hP.congr rfl rfl rfl) e)

theorem touch_qwait (hP : Placed none k) (hc : .thread k.currp ∈ o) (ht : .timer k.currp ∈ o)
    {qp : Nat} (e : k.qwait qp time = some k') : Touch o k k' := by
  unfold qwait at e
  split at e
  · cases e
    exact .setRet _ hc
  · exact Touch.sleepTimeout hP (.setQueue _ (by simp) (by simp)) hc ht
      (queue_setQueue_of_ne (by simp) ..) rfl rfl e

theorem touch_disarm (h : Inv idle none none k) (hc : .thread k.currp ∈ o)
    (ht : .timer k.currp ∈ o) (timed : Bool) : Touch o k ((k.disarm timed).setCont k.currp none) := by
  have h1 : Touch o k (k.disarm timed) := by
    unfold disarm
    split
    · refine .setTimers fun _ u hu => ?_
      rw [VTList.chVTResetI_eq h.waits.fits]
      refine DeltaList.timeLeft_remove ?_
      rintro ⟨⟩
      exact hu ht
    · exact .refl o k
  exact h1.trans (.setCont _ hc)

theorem touch_resume (h : Inv idle none none k) (hc : .thread k.currp ∈ o)
    (ht : .timer k.currp ∈ o) (he : .events k.currp ∈ o) (hi : .inbox k.currp ∈ o)
    (e : k.resume = some k') : Touch o k k' := by
  obtain ⟨⟨rest, timed⟩, hcont, e⟩ := Option.bind_eq_some_iff.1 e
  have h1 := touch_disarm h hc ht timed
  have hP := (h.disarm hcont).placed
  have hcur : ((k.disarm timed).setCont k.currp none).currp = k.currp := by
    unfold disarm; split <;> rfl
  revert h1 hP hcur e
  dsimp only
  generalize (k.disarm timed).setCont k.currp none = k₁
  intro e h1 hP hcur
  rw [← hcur] at hc he hi
  cases rest with
  | message =>
    cases e
    exact h1.trans (.setRet _ hc)
  | take => exact h1.trans (touch_takeMsg hP hc hi e)
  | events mode mask check =>
    unfold finish at e
    dsimp only at e
    split at e
    · cases e
      exact h1.trans (.setRet _ hc)
    · cases e
      exact h1.trans (touch_takeEvents mode mask hc he)

/-! ## The I class -/

theorem touch_wakeFirstI (hP : Placed none k) (hq : .io qp ∈ o) (msg : Int) :
    Touch o k (k.wakeFirstI qp msg) := by
  unfold wakeFirstI
  split
  · exact .refl o k
  · next t k₁ he =>
    obtain ⟨l, hl, rfl⟩ := fifo_remove_eq_some.1 he
    have hm : t ∈ k.queue (.io qp) := by rw [hl]; exact List.mem_cons_self
    exact (Touch.setQueue l (by simp) (by simp)).trans (.readyMsgI _ hq (object_of_mem hP hm))

theorem touch_iterate (m : Nat) (h : Inv idle none none k) (hq : .io qp ∈ o) (msg : Int) :
    Touch o k ((wakeFirstI qp msg)^[m] k) := by
  induction m generalizing k with
  | zero => exact .refl o k
  | succ m ih =>
    obtain ⟨k₁, he, hI, -⟩ := soundI_wakeFirstI h qp msg
    cases he
    exact (touch_wakeFirstI h.placed hq msg).trans (ih hI)

theorem touch_iop (h : Inv idle none none k) {op : IOp n} (hop : k.IOpOk op)
    (ho : ∀ x ∈ op.objects, x ∈ o) (e : k.iop op = some k') : Touch o k k' := by
  cases op with
  | semSignalI sp => exact touch_chSemSignalI h.placed (ho _ (by simp [IOp.objects])) e
  | semResetI sp c => exact touch_chSemResetI h.placed (ho _ (by simp [IOp.objects])) e
  | evtSignalI tp mask =>
    cases e
    exact touch_chEvtSignalI (ho _ (by simp [IOp.objects])) mask
  | resumeI tp msg =>
    cases e
    have hs : (k.state tp).object tp = some (.driver tp) := by
      rw [show k.state tp = .suspended from hop]; rfl
    exact .resumeI _ (ho _ (by simp [IOp.objects])) hs
  | notifyI qp =>
    cases e
    exact touch_wakeFirstI h.placed (ho _ (by simp [IOp.objects])) _
  | qResetI qp =>
    cases e
    exact touch_iterate _ h (ho _ (by simp [IOp.objects])) _
  | vtSetI vtp time =>
    cases e
    exact .setTimers fun _ u _ => DeltaList.timeLeft_insert_of_ne (by simp) _
  | vtResetI vtp =>
    cases e
    refine .setTimers fun _ u _ => ?_
    rw [VTList.chVTResetI_eq h.waits.fits]
    exact DeltaList.timeLeft_remove (by simp)

theorem touch_iops (h : Inv idle none none k) {ops : List (IOp n)} (hops : k.IOpsOk ops)
    (ho : ∀ x ∈ ops.flatMap IOp.objects, x ∈ o) (e : k.iops ops = some k') :
    Touch o k k' ∧ Inv idle none none k' := by
  induction ops generalizing k with
  | nil => cases e; exact ⟨.refl o _, h⟩
  | cons op ops ih =>
    obtain ⟨k₁, he, e⟩ := Option.bind_eq_some_iff.1 e
    obtain ⟨k₂, he', hI, -⟩ := soundI_iop h hops.1
    cases he'.symm.trans he
    have h1 := touch_iop h hops.1 (fun x hx => ho x (by simp [hx])) he
    obtain ⟨h2, h3⟩ := ih hI (hops.2 k₁ he) (fun x hx => ho x (by
      rw [List.flatMap_cons]; exact List.mem_append_right _ hx)) e
    exact ⟨h1.trans h2, h3⟩

/-! ## The tick -/

theorem Touch.dequeue (ho : ∀ x ∈ (k.state t).object t, x ∈ o) : Touch o k (k.dequeue t) := by
  unfold Kern.dequeue
  split
  · exact .refl o k
  · next q hq =>
    refine .setQueue _ ?_ ?_
    all_goals
      rintro _ rfl
      refine ho _ ?_
      revert hq
      cases k.state t <;> simp +contextual [TState.queue, TState.object]

theorem touch_wakeup (hc : k.state t ≠ .current) (ho : ∀ x ∈ (k.state t).object t, x ∈ o) :
    Touch o k (k.wakeup t) := by
  have hd : ∀ k : Kern n, (k.dequeue t).state = k.state :=
    fun k => by unfold Kern.dequeue; split <;> rfl
  have hobj : ∀ {y}, (k.state t).object t = some y → y ∈ o := fun hy => ho _ hy
  unfold wakeup
  split
  · exact .refl o k
  · next sp hs =>
    have hs' : .sem sp ∈ o := hobj (by rw [hs]; rfl)
    have h1 : Touch o k ((k.setCnt sp (k.cnt sp + 1)).dequeue t) :=
      (Touch.setCnt _ hs').trans (.dequeue ho)
    exact h1.trans (.resumeI _ hs' (by rw [hd]; show (k.state t).object t = _; rw [hs]; rfl))
  · next qp hs =>
    have hs' : .io qp ∈ o := hobj (by rw [hs]; rfl)
    exact (Touch.dequeue ho).trans (.resumeI _ hs' (by rw [hd, hs]; rfl))
  · next hr _ _ =>
    cases hs : (k.state t).object t with
    | none =>
      rcases TState.object_eq_none.1 hs with h1 | h1
      · exact (hr h1).elim
      · exact (hc h1).elim
    | some y => exact .resumeI _ (hobj hs) hs

theorem touch_tick (k : Kern n) :
    Touch [.clock] k { k.chSysTimerHandlerI with inIsr := true } :=
  { Touch.refl [.clock] k with
    timer := fun hc => (hc List.mem_cons_self).elim
    runnable := fun _ _ hr => ⟨hr, rfl⟩ }

theorem touch_expire (h : Inv idle none none k) (hU : k.Unlocked) (e : k.expire = some k') :
    Touch (Label.objects k .expire) k k' := by
  unfold expire at e
  unfold Label.objects
  cases hx : k.vtlist.expired with
  | none => rw [hx] at e; cases e
  | some p =>
    obtain ⟨x, l⟩ := p
    have hv := VTList.expired_eq_some.1 hx
    have hpop : ∀ {u}, x ≠ .thread u →
        DeltaList.timeLeft l (.thread u) = DeltaList.timeLeft k.vtlist (.thread u) := fun hu => by
      rw [hv, DeltaList.timeLeft_pop hu]
    rw [hx] at e
    cases x with
    | user vtp =>
      cases e
      exact .setTimers fun _ u _ => hpop (by simp)
    | thread tp =>
      cases e
      have hc : k.state tp ≠ .current := fun hs => by
        obtain ⟨⟨rest, hc⟩, -⟩ := h.waits.armed tp (by rw [hv, DeltaList.keys_cons]; simp)
        rw [(h.placed.current tp).1 hs, show k.cont k.currp = none from hU] at hc
        cases hc
      refine (Touch.setTimers fun _ u hu => hpop ?_).trans (touch_wakeup hc ?_)
      · rintro ⟨⟩
        exact hu List.mem_cons_self
      · intro y hy
        refine List.mem_cons_of_mem _ ?_
        rw [show (k.state tp).object tp = some y from hy]
        exact List.mem_singleton_self y

/-! ## Steps -/

theorem touch_call (h : Inv idle none none k) {c : Call n} (hc : k.CallOk c)
    (e : k.call c = some k') : Touch (.thread k.currp :: c.objects k) k k' := by
  have ho : .thread k.currp ∈ (Obj.thread k.currp :: c.objects k) := List.mem_cons_self
  have hm : ∀ {y}, y ∈ c.objects k → y ∈ (Obj.thread k.currp :: c.objects k) :=
    List.mem_cons_of_mem _
  have hP := h.placed
  cases c with
  | semWait sp => exact touch_chSemWait hP ho (by simp [Call.objects]) e
  | semWaitTimeout sp time =>
    exact touch_chSemWaitTimeout hP ho (by simp [Call.objects]) (by simp [Call.objects]) e
  | semSignal sp => exact touch_chSemSignal hP ho (by simp [Call.objects]) e
  | semReset sp c =>
    exact touch_chSemReset h ho (by simp [Call.objects]) e
  | semSignalWait sps spw =>
    exact touch_chSemSignalWait h ho (by simp [Call.objects]) (by simp [Call.objects]) e
  | mtxLock mp => exact touch_chMtxLock h ho e
  | mtxTryLock mp => exact touch_chMtxTryLock ho e
  | mtxUnlock =>
    refine touch_chMtxUnlock hP ho (fun ump hu => hm ?_) e
    cases hl : k.mtxlist k.currp with
    | nil => rw [hl] at hu; cases hu
    | cons m l => rw [hl] at hu; cases hu; simp [Call.objects, hl]
  | mtxUnlockAll => exact touch_chMtxUnlockAll hP ho (fun ump hu => by simp [Call.objects, hu]) e
  | msgSend tp msg => exact touch_chMsgSend hP ho (by simp [Call.objects]) e
  | msgWait => exact touch_chMsgWait hP ho (by simp [Call.objects]) e
  | msgRelease tp msg => exact touch_chMsgRelease hP ho (by simp [Call.objects]) hc e
  | evtWait mode mask => exact touch_chEvtWait hP ho (by simp [Call.objects]) e
  | evtWaitTimeout mode mask time =>
    exact touch_chEvtWaitTimeout hP ho (by simp [Call.objects]) (by simp [Call.objects]) e
  | evtGetAndClear mask =>
    cases e
    exact (Touch.setRet _ ho).trans (.setEpending _ (by simp [Call.objects]))
  | evtAdd mask =>
    cases e
    exact (Touch.setEpending _ (by simp [Call.objects])).trans (.setRet _ ho)
  | evtSignal tp mask => exact touch_chEvtSignal h ho (by simp [Call.objects]) e
  | create tp prio =>
    exact touch_chThdCreateStatic hP ho hc.1 (by simp [Call.objects]) (by simp [Call.objects])
      (by simp [Call.objects]) (by simp [Call.objects]) e
  | sleep time =>
    exact Touch.sleepTimeout hP (.refl _ k) ho (by simp [Call.objects]) rfl rfl rfl e
  | yield => exact touch_chThdYield hP ho e
  | suspend => exact touch_suspend hP ho e
  | qwait qp time => exact touch_qwait hP ho (by simp [Call.objects]) e

/-- **A step touches** nothing but what its label names. -/
theorem touch_step (h : Inv idle none none k) {a : Label n} (ha : k.Allowed idle a)
    (e : k.step a = some k') : Touch (a.objects k) k k' := by
  cases a with
  | call c => exact touch_call h ha.2.2.2 e
  | resume =>
    exact touch_resume h (by simp [Label.objects]) (by simp [Label.objects])
      (by simp [Label.objects]) (by simp [Label.objects]) e
  | locked ops resched =>
    obtain ⟨k₁, he, e⟩ := Option.bind_eq_some_iff.1 e
    obtain ⟨h1, h2⟩ := touch_iops h ha.2.2.2 (fun x hx => hx) he
    cases resched with
    | true => exact h1.trans (.chSchRescheduleS e h2.placed)
    | false => cases e; exact h1
  | isr op =>
    obtain ⟨k₁, he, rfl⟩ := Option.map_eq_some_iff.1 e
    exact (touch_iop h ha.2 (fun x hx => hx) he).trans (.same rfl rfl rfl rfl rfl rfl rfl rfl)
  | tick => cases e; exact touch_tick k
  | expire => exact touch_expire h ha.1 e
  | epilogue => exact .irqEpilogue h.placed e

/-- **A thread that is asleep** stays in its state as long as no operation touches the object it
waits for and its timer does not expire, whatever else happens. -/
theorem run_asleep {main : Fin n} {cnts : Nat → Nat} {as bs : List (Label n)} (hne : main ≠ idle)
    (h : Run main idle cnts as k) (hx : (k.state t).object t = some x)
    (hb : Steps step (fun k a => k.Allowed idle a ∧ x ∉ a.objects k ∧ .timer t ∉ a.objects k)
      k bs k') : k'.state t = k.state t := by
  have hI := Run.inv hne h
  have hrun : Inv idle none none k' ∧ k'.state t = k.state t := by
    refine hb.inv (I := fun s => Inv idle none none s ∧ s.state t = k.state t) ?_ ⟨hI, rfl⟩
    rintro s a s' ⟨hI, hs⟩ ⟨ha, h1, h2⟩ he
    refine ⟨hI.of_step ha he, ?_⟩
    rw [← hs] at hx ⊢
    exact (touch_step hI ha he).asleep t x hx h1 h2
  exact hrun.2

/-- The second thread waits for a semaphore while `main` does other things. -/
theorem run_asleep_sem : ∃ k k', Run (1 : Fin 3) 0 (fun _ => 0)
    [.call (.create 2 100), .call (.semWait 0)] k ∧ Steps step
      (fun k a => k.Allowed 0 a ∧ .sem 0 ∉ a.objects k ∧ .timer 2 ∉ a.objects k) k
      [.call (.evtSignal 2 5), .tick, .epilogue, .call (.sleep 7), .tick, .epilogue] k' ∧
    k'.state 2 = .wtsem 0 := by
  have h : ((exec step (Allowed 0) (chSysInit (1 : Fin 3) 0 fun _ => 0)
      [.call (.create 2 100), .call (.semWait 0)]).any fun k => k.state 2 = .wtsem 0 ∧ ((exec step
        (fun k a => k.Allowed 0 a ∧ .sem 0 ∉ a.objects k ∧ .timer 2 ∉ a.objects k) k
        [.call (.evtSignal 2 5), .tick, .epilogue, .call (.sleep 7), .tick,
          .epilogue]).isSome = true)) = true := by decide +kernel
  obtain ⟨k, he, hs⟩ := (Option.any_eq_true _ _).1 h
  obtain ⟨h1, h2⟩ := of_decide_eq_true hs
  obtain ⟨k', he'⟩ := Option.isSome_iff_exists.1 h2
  refine ⟨k, k', steps_of_exec he, steps_of_exec he', ?_⟩
  rw [← h1]
  exact run_asleep (by decide) (steps_of_exec he) (by rw [h1]; rfl) (steps_of_exec he')

end Kern

end RobotPws.Kernel
