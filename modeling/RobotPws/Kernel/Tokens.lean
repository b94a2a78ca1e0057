import RobotPws.Kernel.Interference
import RobotPws.Lib.Semaphore

/-!
# The semaphores of the kernel are semaphores

`semEvents sp` reads off a step what it is for the semaphore `sp`. After any run that semaphore is in
the state a semaphore is in after these events, and what a wait returns is what it has been answered
(`run_semaphore`). So no token is lost, whatever the timeouts and the interrupts do (`run_tokens`).
-/

namespace RobotPws.Kernel

open RobotPws.Lib Function

variable {n : Nat}

def answerMsg : Answer → Int
  | .ok => RDY_OK
  | .timeout => RDY_TIMEOUT
  | .reset => RDY_RESET

def IOp.semEvents (sp : Nat) : IOp n → List (SemEvent (Fin n))
  | .semSignalI sp' => if sp' = sp then [.signal] else []
  | .semResetI sp' c => if sp' = sp then [.reset c] else []
  | _ => []

/-- A call of `t`. If it is not about the semaphore, what an earlier one has returned is of no more
interest. -/
def Call.semEvents (sp : Nat) (t : Fin n) : Call n → List (SemEvent (Fin n))
  | .semWait sp' => if sp' = sp then [.wait t] else [.forget t]
  | .semWaitTimeout sp' time =>
    if sp' = sp then [if time = TIME_IMMEDIATE then .poll t else .wait t] else [.forget t]
  | .semSignal sp' => .forget t :: if sp' = sp then [.signal] else []
  | .semReset sp' c => .forget t :: if sp' = sp then [.reset c] else []
  | .semSignalWait sps spw =>
    (if sps = sp then [.signal] else []) ++ if spw = sp then [.wait t] else [.forget t]
  | .create tp _ => [.forget t, .forget tp]
  | _ => [.forget t]

/-- What a step is for the semaphore `sp`. -/
def semEvents (sp : Nat) (k : Kern n) : Label n → List (SemEvent (Fin n))
  | .call c => c.semEvents sp k.currp
  | .locked ops _ => ops.flatMap (IOp.semEvents sp)
  | .isr op => op.semEvents sp
  | .expire => match k.vtlist.expired with
    | some (.thread tp, _) => if k.state tp = .wtsem sp then [.timeout tp] else []
    | _ => []
  | _ => []

namespace Kern

/-- What the last call of `t` has returned, or is going to return when `t` runs. -/
def Answered (k : Kern n) (t : Fin n) (m : Int) : Prop :=
  k.cont t = none ∧ k.ret t = .msg m ∨
    (∃ timed, k.cont t = some ⟨.message, timed⟩) ∧ (k.state t).Runnable ∧ k.rdymsg t = m

/-- The semaphore `sp` is in the state `s`. -/
structure Follows (sp : Nat) (k : Kern n) (s : Semaphore (Fin n)) : Prop where
  value : s.value = (k.cnt sp).toNat
  waiting : s.waiting = k.queue (.sem sp)
  answer : ∀ t a, s.answer t = some a → k.Answered t (answerMsg a)

variable {idle : Fin n} {k k' k₁ : Kern n} {t u : Fin n} {o : List (Obj n)} {sp c : Nat}
  {time : UInt32} {s : Semaphore (Fin n)} {m : Int} {l : List (Fin n)}

theorem Answered.touch (h : k.Answered t m) (hT : Touch o k k') (ht : .thread t ∉ o) :
    k'.Answered t m := by
  rcases h with ⟨h1, h2⟩ | ⟨h1, h2, h3⟩
  · exact .inl ⟨(hT.cont t ht).trans h1, (hT.ret t ht).trans h2⟩
  · obtain ⟨h4, h5⟩ := hT.runnable t ht h2
    exact .inr ⟨by rw [hT.cont t ht]; exact h1, h4, h5.trans h3⟩

/-- A thread that has waited for a semaphore returns the message it is woken up with. -/
theorem Answered.woken (h : Inv idle none none k) (hs : k.state t = .wtsem sp)
    (hc : k'.cont = k.cont) (hr : (k'.state t).Runnable) (hm : k'.rdymsg t = m) :
    k'.Answered t m := by
  have hrest := h.waits.rests t
  rw [hs] at hrest
  exact .inr ⟨by rw [hc]; exact hrest, hr, hm⟩

namespace Follows

theorem forget (h : Follows sp k s) (t : Fin n) : Follows sp k (s.step (.forget t)) where
  value := h.value
  waiting := h.waiting
  answer := fun u a hu => by
    have hu' : update s.answer t none u = some a := hu
    by_cases hut : u = t
    · rw [hut, update_self] at hu'
      cases hu'
    · rw [update_of_ne hut] at hu'
      exact h.answer u a hu'

theorem frame (h : Follows sp k s) (hT : Touch o k k') (hs : .sem sp ∉ o)
    (ha : ∀ t, .thread t ∈ o → s.answer t = none) : Follows sp k' s where
  value := by rw [(hT.sem sp hs).2]; exact h.value
  waiting := by rw [(hT.sem sp hs).1]; exact h.waiting
  answer := fun t a ht => by
    refine (h.answer t a ht).touch hT fun ho => ?_
    rw [ha t ho] at ht
    cases ht

/-! ## Signal -/

theorem give (h : Inv idle none none k) (hF : Follows sp k s) (hc : k.cnt sp + 1 ≤ 0)
    (hq : k.queue (.sem sp) = t :: l)
    (hs : Sched {t} ((k.setCnt sp (k.cnt sp + 1)).setQueue (.sem sp) l) k')
    (hret : k'.ret = k.ret) (hrdy : k'.rdymsg = update k.rdymsg t RDY_OK)
    (hr : (k'.state t).Runnable) : Follows sp k' (s.step .signal) := by
  have hst : k.state t = .wtsem sp := h.placed.wtsem_of_mem (by rw [hq]; simp)
  have hw : s.step .signal = { s with waiting := l, answer := update s.answer t (some .ok) } := by
    unfold Semaphore.step
    rw [hF.waiting, hq]
  rw [hw]
  refine ⟨?_, ?_, fun u a hu => ?_⟩
  · rw [hs.still.cnt]
    show s.value = (update k.cnt sp (k.cnt sp + 1) sp).toNat
    rw [update_self, hF.value]
    omega
  · rw [hs.queue _ (by simp), queue_setQueue_self]
  · have hu' : update s.answer t (some .ok) u = some a := hu
    by_cases hut : u = t
    · rw [hut, update_self] at hu'
      cases hu'
      rw [hut]
      exact .woken h hst hs.still.cont hr (by rw [hrdy, update_self]; rfl)
    · rw [update_of_ne hut] at hu'
      rcases hF.answer u a hu' with ⟨h1, h2⟩ | ⟨h1, h2, h3⟩
      · exact .inl ⟨by rw [hs.still.cont]; exact h1, by rw [hret]; exact h2⟩
      · refine .inr ⟨by rw [hs.still.cont]; exact h1, (hs.runnable_iff hut).2 h2, ?_⟩
        rw [hrdy, update_of_ne hut]
        exact h3

theorem token (h : Inv idle none none k) (hF : Follows sp k s) (hc : ¬ k.cnt sp + 1 ≤ 0) :
    Follows sp (k.setCnt sp (k.cnt sp + 1)) (s.step .signal) := by
  have hq : k.queue (.sem sp) = [] := by
    have hlen := h.sems sp
    exact List.length_eq_zero_iff.1 (by omega)
  have hw : s.step .signal = { s with value := s.value + 1 } := by
    unfold Semaphore.step
    rw [hF.waiting, hq]
  rw [hw]
  refine ⟨?_, hF.waiting, hF.answer⟩
  show s.value + 1 = (update k.cnt sp (k.cnt sp + 1) sp).toNat
  rw [update_self, hF.value]
  omega

theorem signalI (h : Inv idle none none k) (hF : Follows sp k s)
    (e : k.chSemSignalI sp = some k') : Follows sp k' (s.step .signal) := by
  unfold chSemSignalI at e
  dsimp only at e
  rw [cnt_setCnt] at e
  split at e
  · next hc =>
    obtain ⟨⟨t, k₁⟩, he, rfl⟩ := Option.map_eq_some_iff.1 e
    obtain ⟨l, hq, rfl⟩ := fifo_remove_eq_some.1 he
    exact give h hF hc hq (.readyMsgI _ t RDY_OK) rfl rfl (.inl (update_self ..))
  · next hc =>
    cases e
    exact token h hF hc

theorem signal (h : Inv idle none none k) (hF : Follows sp k s)
    (e : k.chSemSignal sp = some k') :
    Follows sp k' ((s.step (.forget k.currp)).step .signal) := by
  have h' : Inv idle none none (k.setRet .void) := h.setRet _
  have hF' : Follows sp (k.setRet .void) (s.step (.forget k.currp)) :=
    (hF.forget k.currp).frame (.setRet (o := [.thread k.currp]) _ (by simp)) (by simp) fun t ht => by
      obtain rfl : t = k.currp := by simpa using ht
      exact update_self ..
  unfold chSemSignal at e
  rw [show (k.setCnt sp (k.cnt sp + 1)).setRet .void =
    (k.setRet .void).setCnt sp ((k.setRet .void).cnt sp + 1) from rfl] at e
  dsimp only at e
  rw [cnt_setCnt] at e
  split at e
  · next hc =>
    obtain ⟨⟨t, k₁⟩, he, rfl⟩ := Option.map_eq_some_iff.1 e
    obtain ⟨l, hq, rfl⟩ := fifo_remove_eq_some.1 he
    obtain ⟨h1, h2⟩ := Sched.chSchWakeupS (k := (((k.setRet .void).setCnt sp
      ((k.setRet .void).cnt sp + 1)).setQueue (.sem sp) l)) h.placed.currp t RDY_OK
    refine give h' hF' hc hq h1 ?_ ?_ h2
    · unfold chSchWakeupS
      split <;> rfl
    · unfold chSchWakeupS
      split <;> rfl
  · next hc =>
    cases e
    exact token h' hF' hc

/-! ## Wait -/

theorem goSleep_touch {st : TState n} (hP : Placed none k) (hq : k₁.queue .ready = k.queue .ready)
    (hs : k₁.state = k.state) (hc : k₁.currp = k.currp) (e : k₁.chSchGoSleepS st = some k') :
    Touch [.thread k.currp] k₁ k' := by
  refine Touch.chSchGoSleepS (by rw [hc]; simp) (by rw [hs, hc]; exact hP.currp) ?_ e
  rw [hq, hs, hc]
  exact fun u hu => hP.ready_mem hu

/-- `--sp->s_cnt` is below zero; the thread sleeps at the end of the queue. -/
theorem block {st : TState n} {c : Option Cont} {v : VTList (Timer n)} (hP : Placed none k)
    (hF : Follows sp k s) (hc : k.cnt sp - 1 < 0)
    (hk : k₁ = { (k.setCnt sp (k.cnt sp - 1)).queue_insert k.currp (.sem sp) with
      vtlist := v }.setCont k.currp c) (e : k₁.chSchGoSleepS st = some k') (hT : Touch o k k')
    (ho : ∀ u, .thread u ∈ o → u = k.currp) : Follows sp k' (s.step (.wait k.currp)) := by
  have hr : k₁.queue .ready = k.queue .ready := by
    rw [hk]
    show update k.queue (.sem sp) (k.queue (.sem sp) ++ [k.currp]) .ready = _
    exact update_of_ne (by simp) ..
  have hq₁ : k₁.queue (.sem sp) = k.queue (.sem sp) ++ [k.currp] := by
    rw [hk]; exact queue_setQueue_self ..
  have hc₁ : k₁.cnt sp = k.cnt sp - 1 := by
    rw [hk]; exact cnt_setCnt ..
  have h1 := goSleep_touch hP hr (by rw [hk]; rfl) (by rw [hk]; rfl) e
  obtain ⟨h2, h3⟩ := h1.sem sp (by simp)
  have hcnt := h3.trans hc₁
  have hq := h2.trans hq₁
  have hv : s.value = 0 := by rw [hF.value]; omega
  have hw : s.step (.wait k.currp) =
      { s with waiting := s.waiting ++ [k.currp], answer := update s.answer k.currp none } := by
    unfold Semaphore.step
    rw [hv]
  rw [hw]
  refine ⟨?_, by rw [hq, hF.waiting], fun u a hu => ?_⟩
  · rw [hcnt]
    show s.value = _
    rw [hv]
    omega
  · have hu' : update s.answer k.currp none u = some a := hu
    by_cases huc : u = k.currp
    · rw [huc, update_self] at hu'
      cases hu'
    · rw [update_of_ne huc] at hu'
      exact (hF.answer u a hu').touch hT fun hm => huc (ho u hm)

theorem take (hF : Follows sp k s) (hU : k.Unlocked) (hc : ¬ k.cnt sp - 1 < 0) :
    Follows sp ((k.setCnt sp (k.cnt sp - 1)).setRet (.msg RDY_OK)) (s.step (.wait k.currp)) ∧
      s.step (.poll k.currp) = s.step (.wait k.currp) := by
  obtain ⟨v, hv⟩ : ∃ v, s.value = v + 1 := ⟨s.value - 1, by rw [hF.value]; omega⟩
  have hw : s.step (.wait k.currp) =
      { s with value := v, answer := update s.answer k.currp (some .ok) } := by
    unfold Semaphore.step
    rw [hv]
  have hp : s.step (.poll k.currp) =
      { s with value := v, answer := update s.answer k.currp (some .ok) } := by
    unfold Semaphore.step
    rw [hv]
  rw [hw]
  refine ⟨⟨?_, hF.waiting, fun u a hu => ?_⟩, hp⟩
  · show v = (update k.cnt sp (k.cnt sp - 1) sp).toNat
    have := hF.value
    rw [update_self]
    omega
  · have hu' : update s.answer k.currp (some .ok) u = some a := hu
    by_cases huc : u = k.currp
    · rw [huc, update_self] at hu'
      cases hu'
      exact .inl ⟨huc ▸ hU, huc ▸ update_self ..⟩
    · rw [update_of_ne huc] at hu'
      rcases hF.answer u a hu' with ⟨h1, h2⟩ | h1
      · exact .inl ⟨h1, (update_of_ne huc ..).trans h2⟩
      · exact .inr h1

theorem wait (h : Inv idle none none k) (hU : k.Unlocked) (hF : Follows sp k s)
    (e : k.chSemWait sp = some k') : Follows sp k' (s.step (.wait k.currp)) := by
  have hT := touch_chSemWait (o := [.thread k.currp, .sem sp]) h.placed (by simp) (by simp) e
  unfold chSemWait at e
  dsimp only at e
  rw [cnt_setCnt] at e
  split at e
  · next hc =>
    exact block h.placed hF hc rfl e hT (by simp)
  · next hc =>
    cases e
    exact (hF.take hU hc).1

theorem waitReschedule (h : Inv idle none none k) (hU : k.Unlocked) (hF : Follows sp k s)
    (e : k.waitReschedule sp = some k') : Follows sp k' (s.step (.wait k.currp)) := by
  have hT := touch_waitReschedule (o := [.thread k.currp, .sem sp]) h.placed (by simp) (by simp) e
  unfold Kern.waitReschedule at e
  split at e
  · next hc => exact block h.placed hF hc rfl e hT (by simp)
  · next hc =>
    exact (hF.take hU hc).1.frame (Touch.chSchRescheduleS (o := []) e (h.placed.congr rfl rfl rfl))
      (by simp) (by simp)

theorem waitTimeout (h : Inv idle none none k) (hU : k.Unlocked) (hF : Follows sp k s)
    (e : k.chSemWaitTimeout sp time = some k') :
    Follows sp k' (s.step (if time = TIME_IMMEDIATE then .poll k.currp else .wait k.currp)) := by
  have hT := touch_chSemWaitTimeout (o := [.thread k.currp, .sem sp, .timer k.currp]) h.placed
    (by simp) (by simp) (by simp) e
  unfold chSemWaitTimeout at e
  dsimp only at e
  rw [cnt_setCnt] at e
  split at e
  · next hc =>
    split at e
    · next ht =>
      cases e
      have hv : s.value = 0 := by rw [hF.value]; omega
      have hp : s.step (.poll k.currp) =
          { s with answer := update s.answer k.currp (some .timeout) } := by
        unfold Semaphore.step
        rw [hv]
      rw [if_pos ht, hp, setCnt_setCnt, show k.cnt sp - 1 + 1 = k.cnt sp by omega, setCnt_self]
      refine ⟨hF.value, hF.waiting, fun u a hu => ?_⟩
      have hu' : update s.answer k.currp (some .timeout) u = some a := hu
      by_cases huc : u = k.currp
      · rw [huc, update_self] at hu'
        cases hu'
        exact .inl ⟨huc ▸ hU, huc ▸ update_self ..⟩
      · rw [update_of_ne huc] at hu'
        rcases hF.answer u a hu' with ⟨h1, h2⟩ | h1
        · exact .inl ⟨h1, (update_of_ne huc ..).trans h2⟩
        · exact .inr h1
    · next ht =>
      rw [if_neg ht]
      unfold chSchGoSleepTimeoutS at e
      split at e
      · exact block h.placed hF hc rfl e hT (by simp)
      · exact block h.placed hF hc rfl e hT (by simp)
  · next hc =>
    cases e
    obtain ⟨h1, h2⟩ := hF.take hU hc
    split
    · rw [h2]; exact h1
    · exact h1

/-! ## Reset -/

theorem resetLoop_answers (m : Nat) (hP : Placed none k)
    (hr : ∀ t ∈ k.queue (.sem sp), ∃ b, k.cont t = some ⟨.message, b⟩)
    (hm : (k.queue (.sem sp)).length = m) (e : resetLoop sp m k = some k') :
    k'.queue (.sem sp) = [] ∧ k'.cnt = k.cnt ∧
      ∀ t ∈ k.queue (.sem sp), k'.Answered t RDY_RESET := by
  induction m generalizing k with
  | zero =>
    cases e
    have hq := List.length_eq_zero_iff.1 hm
    exact ⟨hq, rfl, fun t ht => by rw [hq] at ht; cases ht⟩
  | succ m ih =>
    obtain ⟨⟨t, k₁⟩, he, e⟩ := Option.bind_eq_some_iff.1 e
    obtain ⟨l, hq, rfl⟩ := lifo_remove_eq_some.1 he
    have hp : (k.queue (.sem sp)).Perm (t :: l) := by
      rw [hq]; exact List.perm_append_singleton ..
    have hmem : t ∈ k.queue (.sem sp) := hp.mem_iff.2 List.mem_cons_self
    have hP₁ := (hP.remove hp).readyMsgI (hP.ne_currp_of_mem hmem) RDY_RESET
    have hq₁ : ((k.setQueue (.sem sp) l).readyMsgI t RDY_RESET).queue (.sem sp) = l :=
      ((Sched.readyMsgI _ t RDY_RESET).queue _ (by simp)).trans (queue_setQueue_self ..)
    dsimp only at e
    revert hP₁ hq₁ e
    obtain ⟨k₁, hk₁⟩ : ∃ k₁, (k.setQueue (.sem sp) l).readyMsgI t RDY_RESET = k₁ := ⟨_, rfl⟩
    have hcont : k₁.cont = k.cont := by rw [← hk₁]; rfl
    have hcnt : k₁.cnt = k.cnt := by rw [← hk₁]; rfl
    have hans : k₁.Answered t RDY_RESET := by
      refine .inr ⟨by rw [hcont]; exact hr t hmem, .inl ?_, ?_⟩
      · rw [← hk₁]; exact update_self ..
      · rw [← hk₁]; exact update_self ..
    rw [hk₁]
    intro e hP₁ hq₁
    have hT := touch_resetLoop (o := [.sem sp]) m hP₁ (by simp) e
    obtain ⟨h1, h2, h3⟩ := ih hP₁ (fun u hu => by
      rw [hq₁] at hu
      rw [hcont]
      exact hr u (hp.mem_iff.2 (List.mem_cons_of_mem _ hu))) (by
      rw [hq₁]
      rw [hp.length_eq, List.length_cons] at hm
      omega) e
    refine ⟨h1, h2.trans hcnt, fun u hu => ?_⟩
    rcases List.mem_cons.1 (hp.mem_iff.1 hu) with rfl | hu
    · exact hans.touch hT (by simp)
    · exact h3 u (by rw [hq₁]; exact hu)

theorem resetI (h : Inv idle none none k) (hF : Follows sp k s)
    (e : k.chSemResetI sp c = some k') : Follows sp k' (s.step (.reset c)) := by
  have hlen := h.sems sp
  have hT := touch_chSemResetI (o := [.sem sp]) h.placed (by simp) e
  have hrest : ∀ t ∈ k.queue (.sem sp), ∃ b, k.cont t = some ⟨.message, b⟩ := fun t ht => by
    have hr := h.waits.rests t
    rw [h.placed.wtsem_of_mem ht] at hr
    exact hr
  obtain ⟨h1, h2, h3⟩ := resetLoop_answers (k := k.setCnt sp c) _ (h.placed.congr rfl rfl rfl)
    hrest hlen e
  refine ⟨?_, h1.symm, fun t a ht => ?_⟩
  · rw [h2, cnt_setCnt]
    rfl
  · have ht' : (if t ∈ s.waiting then some Answer.reset else s.answer t) = some a := ht
    split at ht'
    · next hm =>
      cases ht'
      rw [hF.waiting] at hm
      exact h3 t hm
    · exact (hF.answer t a ht').touch hT (by simp)

theorem reset (h : Inv idle none none k) (hF : Follows sp k s)
    (e : k.chSemReset sp c = some k') :
    Follows sp k' ((s.step (.forget k.currp)).step (.reset c)) := by
  have h' : Inv idle none none (k.setRet .void) := h.setRet _
  have hF' : Follows sp (k.setRet .void) (s.step (.forget k.currp)) :=
    (hF.forget k.currp).frame (.setRet (o := [.thread k.currp]) _ (by simp)) (by simp) fun t ht => by
      obtain rfl : t = k.currp := by simpa using ht
      exact update_self ..
  obtain ⟨k₁, he, e⟩ := Option.bind_eq_some_iff.1 e
  obtain ⟨k₂, he', hI, -⟩ := soundI_chSemResetI h' sp c
  cases he'.symm.trans he
  exact (hF'.resetI h' he).frame (Touch.chSchRescheduleS (o := []) e hI.placed) (by simp) (by simp)

/-! ## Timeout -/

theorem timeout (h : Inv idle none none k) (hs : k.state t = .wtsem sp) (hF : Follows sp k s)
    (v : VTList (Timer n)) :
    Follows sp ({ k with vtlist := v }.wakeup t) (s.step (.timeout t)) := by
  have hm : t ∈ k.queue (.sem sp) := h.placed.mem_iff.2 (by rw [hs]; rfl)
  have hlen := h.sems sp
  have hpos := List.length_pos_of_mem hm
  obtain ⟨k₁, hk₁⟩ : ∃ k₁, ({ k with vtlist := v } : Kern n).setCnt sp (k.cnt sp + 1) = k₁ := ⟨_, rfl⟩
  have hst : k₁.state = k.state := by rw [← hk₁]; rfl
  have hd : k₁.dequeue t = k₁.setQueue (.sem sp) ((k.queue (.sem sp)).erase t) := by
    unfold dequeue
    rw [hst, hs, ← hk₁]
    rfl
  have hw : ({ k with vtlist := v } : Kern n).wakeup t =
      (k₁.setQueue (.sem sp) ((k.queue (.sem sp)).erase t)).resumeI t RDY_TIMEOUT := by
    unfold wakeup
    rw [show ({ k with vtlist := v } : Kern n).state t = .wtsem sp from hs]
    dsimp only
    rw [hk₁, hd]
    rfl
  rw [hw]
  have hsched := Sched.resumeI (k₁.setQueue (.sem sp) ((k.queue (.sem sp)).erase t)) t RDY_TIMEOUT
  have hcont := hsched.still.cont
  refine ⟨?_, ?_, fun u a hu => ?_⟩
  · rw [hsched.still.cnt]
    show s.value = (k₁.cnt sp).toNat
    rw [← hk₁, cnt_setCnt, hF.value]
    omega
  · rw [hsched.queue _ (by simp), queue_setQueue_self, ← hF.waiting]
    rfl
  · have hu' : update s.answer t (some .timeout) u = some a := hu
    have hc : ((k₁.setQueue (.sem sp) ((k.queue (.sem sp)).erase t)).resumeI t RDY_TIMEOUT).cont =
        k.cont := by rw [hcont, ← hk₁]; rfl
    by_cases hut : u = t
    · rw [hut, update_self] at hu'
      cases hu'
      rw [hut]
      exact .woken h hs hc (.inl (update_self ..)) (update_self ..)
    · rw [update_of_ne hut] at hu'
      rcases hF.answer u a hu' with ⟨h1, h2⟩ | ⟨h1, h2, h3⟩
      · exact .inl ⟨by rw [hc]; exact h1, by rw [← h2, ← hk₁]; rfl⟩
      · refine .inr ⟨by rw [hc]; exact h1, (hsched.runnable_iff hut).2 ?_, ?_⟩
        · show (k₁.state u).Runnable
          rw [hst]
          exact h2
        · rw [← h3, ← hk₁]
          exact update_of_ne hut ..

end Follows

/-! ## Steps and runs -/

theorem Follows.iop (h : Inv idle none none k) {op : IOp n} (hop : k.IOpOk op)
    (hF : Follows sp k s) (e : k.iop op = some k') :
    Follows sp k' (s.run (op.semEvents sp)) := by
  have hT := touch_iop h hop (fun x hx => hx) e
  have hother : .sem sp ∉ op.objects → Follows sp k' s := fun hn =>
    hF.frame hT hn fun t ht => by cases op <;> simp [IOp.objects] at ht
  cases op with
  | semSignalI sp' =>
    rw [IOp.semEvents]
    split
    · next hs =>
      subst hs
      exact hF.signalI h e
    · next hs => exact hother (by simpa [IOp.objects] using Ne.symm hs)
  | semResetI sp' c =>
    rw [IOp.semEvents]
    split
    · next hs =>
      subst hs
      exact hF.resetI h e
    · next hs => exact hother (by simpa [IOp.objects] using Ne.symm hs)
  | _ => exact hother (by simp [IOp.objects])

theorem Follows.iops (h : Inv idle none none k) {ops : List (IOp n)} (hops : k.IOpsOk ops)
    (hF : Follows sp k s) (e : k.iops ops = some k') :
    Follows sp k' (s.run (ops.flatMap (IOp.semEvents sp))) ∧ Inv idle none none k' := by
  induction ops generalizing k s with
  | nil => cases e; exact ⟨hF, h⟩
  | cons op ops ih =>
    obtain ⟨k₁, he, e⟩ := Option.bind_eq_some_iff.1 e
    obtain ⟨k₂, he', hI, -⟩ := soundI_iop h hops.1
    cases he'.symm.trans he
    rw [List.flatMap_cons, Semaphore.run_append]
    exact ih hI (hops.2 k₁ he) (hF.iop h hops.1 he) e

theorem Follows.other (h : Inv idle none none k) {c : Call n} (hc : k.CallOk c)
    (hF : Follows sp k s) (e : k.call c = some k') (hs : .sem sp ∉ c.objects k)
    (ho : ∀ t, .thread t ∉ c.objects k) : Follows sp k' (s.step (.forget k.currp)) := by
  refine (hF.forget k.currp).frame (touch_call h hc e) (by simpa using hs) fun t ht => ?_
  rcases List.mem_cons.1 ht with ht | ht
  · cases ht
    exact update_self ..
  · exact (ho t ht).elim

theorem Follows.call (h : Inv idle none none k) (hU : k.Unlocked) {c : Call n} (hc : k.CallOk c)
    (hF : Follows sp k s) (e : k.call c = some k') :
    Follows sp k' (s.run (c.semEvents sp k.currp)) := by
  have hother := hF.other h hc e
  cases c with
  | semWait sp' =>
    rw [Call.semEvents]
    split
    · next hs => subst hs; exact hF.wait h hU e
    · next hs => exact hother (by simpa [Call.objects] using Ne.symm hs) (by simp [Call.objects])
  | semWaitTimeout sp' time =>
    rw [Call.semEvents]
    split
    · next hs => subst hs; exact hF.waitTimeout h hU e
    · next hs => exact hother (by simpa [Call.objects] using Ne.symm hs) (by simp [Call.objects])
  | semSignal sp' =>
    rw [Call.semEvents]
    split
    · next hs => subst hs; exact hF.signal h e
    · next hs => exact hother (by simpa [Call.objects] using Ne.symm hs) (by simp [Call.objects])
  | semReset sp' c =>
    rw [Call.semEvents]
    split
    · next hs => subst hs; exact hF.reset h e
    · next hs => exact hother (by simpa [Call.objects] using Ne.symm hs) (by simp [Call.objects])
  | semSignalWait sps spw =>
    rw [Kern.call, chSemSignalWait_eq] at e
    obtain ⟨k₁, he, e⟩ := Option.bind_eq_some_iff.1 e
    obtain ⟨k₂, he', hI, -, hcur, hcont⟩ := soundI_chSemSignalI h sps
    cases he'.symm.trans he
    have hU₁ : k₁.Unlocked := by rw [Unlocked, hcont, hcur]; exact hU
    have hF₁ : Follows sp k₁ (s.run (if sps = sp then [.signal] else [])) := by
      split
      · next hs => subst hs; exact hF.signalI h he
      · next hs =>
        exact hF.frame (touch_chSemSignalI (o := [.sem sps]) h.placed (by simp) he)
          (by simpa using Ne.symm hs) (by simp)
    rw [Call.semEvents, Semaphore.run_append, ← hcur]
    by_cases hw : spw = sp
    · rw [if_pos hw]
      subst hw
      exact hF₁.waitReschedule hI hU₁ e
    · rw [if_neg hw]
      refine (hF₁.forget k₁.currp).frame (touch_waitReschedule (o := [.thread k₁.currp, .sem spw])
        hI.placed (by simp) (by simp) e) (by simpa using Ne.symm hw) fun t ht => ?_
      obtain rfl : t = k₁.currp := by simpa using ht
      exact update_self ..
  | create tp prio =>
    refine ((hF.forget k.currp).forget tp).frame (touch_call h hc e)
      (by simp [Call.objects]) fun t ht => ?_
    show update (update s.answer k.currp none) tp none t = none
    by_cases htp : t = tp
    · rw [htp, update_self]
    · obtain rfl : t = k.currp := by simpa [Call.objects, htp] using ht
      rw [update_of_ne htp, update_self]
  | mtxUnlock =>
    refine hother (fun hm => ?_) fun t hm => ?_
    · obtain ⟨m, -, he⟩ := List.mem_map.1 hm
      cases he
    · obtain ⟨m, -, he⟩ := List.mem_map.1 hm
      cases he
  | _ => exact hother (by simp [Call.objects]) (by simp [Call.objects])

/-- The running thread goes on after its wait, and returns what it has been answered. -/
theorem Follows.resume (h : Inv idle none none k) (hU : ¬ k.Unlocked) (hF : Follows sp k s)
    (e : k.resume = some k') : Follows sp k' s := by
  have hT := touch_resume (o := [.thread k.currp, .timer k.currp, .events k.currp, .inbox k.currp])
    h (by simp) (by simp) (by simp) (by simp) e
  refine ⟨?_, ?_, fun t a ht => ?_⟩
  · rw [(hT.sem sp (by simp)).2]; exact hF.value
  · rw [(hT.sem sp (by simp)).1]; exact hF.waiting
  · by_cases htc : t = k.currp
    · subst htc
      rcases hF.answer _ a ht with ⟨h1, -⟩ | ⟨⟨timed, hc⟩, -, hm⟩
      · exact (hU h1).elim
      · unfold Kern.resume at e
        rw [hc, Option.bind_some] at e
        cases e
        have hd : ((k.disarm timed).setCont k.currp none).currp = k.currp := by
          unfold disarm; split <;> rfl
        have hr : ((k.disarm timed).setCont k.currp none).rdymsg = k.rdymsg := by
          unfold disarm; split <;> rfl
        refine .inl ⟨update_self .., ?_⟩
        rw [setRet, hr, hd, hm]
        exact update_self ..
    · exact (hF.answer t a ht).touch hT (by simpa using htc)

theorem Follows.expire (h : Inv idle none none k) (hU : k.Unlocked) (hF : Follows sp k s)
    (e : k.expire = some k') : Follows sp k' (s.run (semEvents sp k .expire)) := by
  have hT := touch_expire h hU e
  unfold Kern.expire at e
  unfold semEvents
  unfold Label.objects at hT
  revert hT
  cases hx : k.vtlist.expired with
  | none => rw [hx] at e; cases e
  | some p =>
    obtain ⟨x, v⟩ := p
    rw [hx] at e
    cases x with
    | user vtp => exact fun hT => hF.frame hT (by simp) (by simp)
    | thread tp =>
      intro hT
      dsimp only at e hT ⊢
      split
      · next hs =>
        cases e
        exact hF.timeout h hs v
      · next hs =>
        have hobj : ∀ y, (k.state tp).object tp = some y → y ≠ .sem sp ∧ ∀ t, y ≠ .thread t := by
          intro y hy
          have hf : k.state tp ≠ .final := fun hf => by
            have hm : .thread tp ∈ DeltaList.keys k.vtlist := by
              rw [VTList.expired_eq_some.1 hx, DeltaList.keys_cons]; exact List.mem_cons_self
            have h2 := (h.waits.armed tp hm).2
            rw [hf] at h2
            rcases h2 with (h2 | h2) | h2 <;> cases h2
          revert hs hf hy
          cases k.state tp <;> intro hs hy hf <;> cases hy <;> simp_all
        refine hF.frame hT (fun hm => ?_) fun t hm => ?_
        · rcases List.mem_cons.1 hm with hm | hm
          · cases hm
          · exact (hobj _ (Option.mem_toList.1 hm)).1 rfl
        · rcases List.mem_cons.1 hm with hm | hm
          · cases hm
          · exact ((hobj _ (Option.mem_toList.1 hm)).2 t rfl).elim

theorem Follows.step (h : Inv idle none none k) {a : Label n} (ha : k.Allowed idle a)
    (hF : Follows sp k s) (e : k.step a = some k') : Follows sp k' (s.run (semEvents sp k a)) := by
  cases a with
  | call c => exact hF.call h ha.1 ha.2.2.2 e
  | resume => exact hF.resume h ha e
  | locked ops resched =>
    obtain ⟨k₁, he, e⟩ := Option.bind_eq_some_iff.1 e
    obtain ⟨h1, h2⟩ := hF.iops h ha.2.2.2 he
    cases resched with
    | true => exact h1.frame (Touch.chSchRescheduleS (o := []) e h2.placed) (by simp) (by simp)
    | false => cases e; exact h1
  | isr op =>
    obtain ⟨k₁, he, rfl⟩ := Option.map_eq_some_iff.1 e
    exact (hF.iop h ha.2 he).frame (Touch.same (o := []) rfl rfl rfl rfl rfl rfl rfl rfl) (by simp)
      (by simp)
  | tick => cases e; exact hF.frame (touch_tick k) (by simp) (by simp)
  | expire => exact hF.expire h ha.1 e
  | epilogue => exact hF.frame (Touch.irqEpilogue (o := []) h.placed e) (by simp) (by simp)

variable {main : Fin n} {cnts : Nat → Nat} {as : List (Label n)}

/-- What the run has been for the semaphore `sp`. -/
def semHistory (sp : Nat) (main idle : Fin n) (cnts : Nat → Nat) (as : List (Label n)) :
    List (SemEvent (Fin n)) :=
  observe step (fun k a _ => semEvents sp k a) (chSysInit main idle cnts) as

theorem follows_chSysInit (hne : main ≠ idle) :
    Follows sp (chSysInit main idle cnts) (Semaphore.init (cnts sp)) := by
  rw [chSysInit_eq hne]
  exact ⟨(Int.toNat_natCast _).symm, rfl, fun t a ht => by cases ht⟩

/-- **After any run** a semaphore of the kernel is in the state of a semaphore after the same events:
its tokens, those who wait in the order they came, and each one's answer, which is what its wait has
returned or is going to return. -/
theorem run_semaphore (hne : main ≠ idle) (h : Run main idle cnts as k) (sp : Nat) :
    k.cnt sp = ((Semaphore.init (cnts sp)).run (semHistory sp main idle cnts as)).value -
        (k.queue (.sem sp)).length ∧
      ((Semaphore.init (cnts sp)).run (semHistory sp main idle cnts as)).waiting =
        k.queue (.sem sp) ∧
      ∀ t a, ((Semaphore.init (cnts sp)).run (semHistory sp main idle cnts as)).answer t = some a →
        k.Answered t (answerMsg a) := by
  have hrun : Inv idle none none k ∧
      Follows sp k ((Semaphore.init (cnts sp)).run ([] ++ semHistory sp main idle cnts as)) := by
    refine Steps.inv_observe (I := fun k es => Inv idle none none k ∧
      Follows sp k ((Semaphore.init (cnts sp)).run es)) ?_ h
        ⟨inv_chSysInit hne cnts, follows_chSysInit hne⟩
    rintro k es a k' ⟨hI, hF⟩ ha he
    rw [Semaphore.run_append]
    exact ⟨hI.of_step ha he, hF.step hI ha he⟩
  obtain ⟨hI, hF⟩ := hrun
  rw [List.nil_append] at hF
  refine ⟨?_, hF.waiting, hF.answer⟩
  have hv := hF.value
  have hlen := hI.sems sp
  omega

/-- The second thread's time is up before the semaphore is signalled. -/
theorem run_semaphore_timeout : ∃ k, Run (1 : Fin 3) 0 (fun _ => 0) (lockedRun.take 9) k ∧
    k.Answered 2 RDY_TIMEOUT := by
  have h : (exec step (Allowed 0) (chSysInit (1 : Fin 3) 0 fun _ => 0)
      (lockedRun.take 9)).isSome = true := by decide +kernel
  obtain ⟨k, he⟩ := Option.isSome_iff_exists.1 h
  have hr : Run (1 : Fin 3) 0 (fun _ => 0) (lockedRun.take 9) k := steps_of_exec he
  exact ⟨k, hr, (run_semaphore (by decide) hr 0).2.2 2 .timeout (by decide +kernel)⟩

/-- **Without a reset** the tokens given and those left are those there were at the start and those
signalled since; while a thread waits all of them have been given. -/
theorem run_tokens (hne : main ≠ idle) (h : Run main idle cnts as k)
    (hr : ∀ c, .reset c ∉ semHistory sp main idle cnts as) :
    (k.cnt sp).toNat + (Semaphore.init (cnts sp)).given (semHistory sp main idle cnts as) =
        cnts sp + Semaphore.signals (semHistory sp main idle cnts as) ∧
      ∀ t, k.state t = .wtsem sp →
        (Semaphore.init (cnts sp)).given (semHistory sp main idle cnts as) =
          cnts sp + Semaphore.signals (semHistory sp main idle cnts as) := by
  obtain ⟨hcnt, hw, -⟩ := run_semaphore hne h sp
  have htok := (Semaphore.init (cnts sp)).tokens hr
  have hfair := Semaphore.Fair.run (s := Semaphore.init (cnts sp)) (.inr rfl)
    (semHistory sp main idle cnts as)
  have hinit : (Semaphore.init (cnts sp) : Semaphore (Fin n)).value = cnts sp := rfl
  have hI := Run.inv hne h
  have hlen := hI.sems sp
  refine ⟨by omega, fun t ht => ?_⟩
  have hm : t ∈ k.queue (.sem sp) := hI.placed.mem_iff.2 (by rw [ht]; rfl)
  have hv : ((Semaphore.init (cnts sp)).run (semHistory sp main idle cnts as)).value = 0 := by
    refine hfair.resolve_right fun he => ?_
    rw [hw] at he
    rw [he] at hm
    cases hm
  omega

/-- The second thread waits for its second token. -/
theorem run_tokens_signal : ∃ k, Run (1 : Fin 3) 0 (fun _ => 0) [.call (.create 2 100),
      .call (.semWait 0), .call (.semSignal 0), .resume, .call (.semWait 0)] k ∧
    k.state 2 = .wtsem 0 ∧ (Semaphore.init 0).given (semHistory 0 (1 : Fin 3) 0 (fun _ => 0)
      [.call (.create 2 100), .call (.semWait 0), .call (.semSignal 0), .resume,
        .call (.semWait 0)]) = 1 := by
  have h : (exec step (Allowed 0) (chSysInit (1 : Fin 3) 0 fun _ => 0) [.call (.create 2 100),
      .call (.semWait 0), .call (.semSignal 0), .resume, .call (.semWait 0)]).any
      (fun k => k.state 2 = .wtsem 0) = true := by decide +kernel
  obtain ⟨k, he, hs⟩ := (Option.any_eq_true _ _).1 h
  have hr : Run (1 : Fin 3) 0 (fun _ => 0) [.call (.create 2 100), .call (.semWait 0),
    .call (.semSignal 0), .resume, .call (.semWait 0)] k := steps_of_exec he
  have hev : semHistory 0 (1 : Fin 3) 0 (fun _ => 0) [.call (.create 2 100), .call (.semWait 0),
      .call (.semSignal 0), .resume, .call (.semWait 0)] =
      [.forget 1, .forget 2, .wait 2, .forget 1, .signal, .wait 2] := by rfl
  refine ⟨k, hr, of_decide_eq_true hs, ?_⟩
  rw [(run_tokens (by decide) hr (by rw [hev]; simp)).2 2 (of_decide_eq_true hs), hev]
  rfl

end Kern

end RobotPws.Kernel
