import RobotPws.Kernel.Interference

/-!
# Timeouts

A thread that waits for a limited time has the ticks left to it in the timer list. They get fewer by
one with each tick and by nothing else, so that it sleeps for exactly the time it has been given
unless somebody wakes it up before (`run_timeout`).
-/

namespace RobotPws.Kernel

open RobotPws.Lib Function

variable {n : Nat}

/-- The time the call may wait. -/
def Call.timeout : Call n → Option UInt32
  | .semWaitTimeout _ time | .evtWaitTimeout _ _ time | .sleep time | .qwait _ time => some time
  | _ => none

def Label.ticks : Label n → Nat
  | .tick => 1
  | _ => 0

namespace Kern

variable {idle : Fin n} {k k' k₁ k₂ : Kern n} {t : Fin n} {st : TState n} {rest : Rest}
  {time : UInt32} {a : Label n} {j : Nat} {l : VTList (Timer n)}

/-! ## The timer is set -/

theorem not_armed (h : Inv idle none none k) (hU : k.Unlocked) :
    .thread k.currp ∉ DeltaList.keys k.vtlist := fun hm => by
  obtain ⟨⟨rest, hc⟩, -⟩ := h.waits.armed _ hm
  rw [show k.cont k.currp = none from hU] at hc
  cases hc

theorem timeLeft_chSchGoSleepTimeoutS (e : k.chSchGoSleepTimeoutS st time rest = some k')
    (hc : k.currp = t) (hn : .thread t ∉ DeltaList.keys k.vtlist) (hi : time ≠ TIME_INFINITE) :
    k'.timeLeft t = some time.toNat := by
  subst hc
  unfold chSchGoSleepTimeoutS at e
  rw [if_pos hi] at e
  obtain ⟨tp, l, -, rfl⟩ := pick_eq_some.1 e
  exact DeltaList.timeLeft_insert_self hn _

theorem timeLeft_call (h : Inv idle none none k) (hU : k.Unlocked) {c : Call n}
    (ht : c.timeout = some time) (hi : time ≠ TIME_INFINITE) (e : k.call c = some k')
    (hs : ¬ (k'.state k.currp).Runnable) : k'.timeLeft k.currp = some time.toNat := by
  have hn := not_armed h hU
  have hcur : (k.state k.currp).Runnable := .inr ((h.placed.current _).2 rfl)
  cases c with
  | semWaitTimeout sp t =>
    cases ht
    rw [call, chSemWaitTimeout] at e
    split at e
    · split at e
      · cases e
        exact (hs hcur).elim
      · exact timeLeft_chSchGoSleepTimeoutS e rfl hn hi
    · cases e
      exact (hs hcur).elim
  | evtWaitTimeout mode mask t =>
    cases ht
    rw [call, chEvtWaitTimeout] at e
    split at e
    · cases e
      exact (hs hcur).elim
    · split at e
      · cases e
        exact (hs hcur).elim
      · exact timeLeft_chSchGoSleepTimeoutS e rfl hn hi
  | sleep t =>
    cases ht
    exact timeLeft_chSchGoSleepTimeoutS e rfl hn hi
  | qwait qp t =>
    cases ht
    rw [call, qwait] at e
    split at e
    · cases e
      exact (hs hcur).elim
    · exact timeLeft_chSchGoSleepTimeoutS e rfl hn hi
  | _ => cases ht

/-! ## The callback -/

theorem vtlist_wakeup (k : Kern n) (t : Fin n) : (k.wakeup t).vtlist = k.vtlist := by
  unfold wakeup
  split
  · rfl
  · unfold dequeue
    split <;> rfl
  · unfold dequeue
    split <;> rfl
  · rfl

theorem state_wakeup_of_ne (k : Kern n) {u : Fin n} (hu : u ≠ t) :
    (k.wakeup t).state u = k.state u := by
  unfold wakeup
  split
  · rfl
  · unfold dequeue
    split <;> exact update_of_ne hu ..
  · unfold dequeue
    split <;> exact update_of_ne hu ..
  · exact update_of_ne hu ..

theorem state_wakeup (h : Inv idle none none k) (hs : (k.state t).Limited) (l : VTList (Timer n)) :
    ({ k with vtlist := l }.wakeup t).state t = .ready ∧
      ({ k with vtlist := l }.wakeup t).rdymsg t = RDY_TIMEOUT := by
  obtain ⟨k₁, hw, -⟩ := wakeup_eq h hs l
  rw [hw]
  exact ⟨update_self .., update_self ..⟩

theorem limited_of_timeLeft (h : Inv idle none none k) (hs : ¬ (k.state t).Runnable)
    (ht : k.timeLeft t = some j) : (k.state t).Limited := by
  have hm : .thread t ∈ DeltaList.keys k.vtlist := by
    by_contra hm
    rw [timeLeft, DeltaList.timeLeft_eq_none.2 hm] at ht
    cases ht
  exact (h.waits.armed t hm).2.resolve_left hs

/-! ## Steps -/

theorem timeLeft_tick (h : Inv idle none none k) (he : k.vtlist.expired = none) (t : Fin n) :
    ({ k.chSysTimerHandlerI with inIsr := true } : Kern n).timeLeft t =
      (k.timeLeft t).map (· - 1) := by
  have hE := VTList.early_of_expired he
  show DeltaList.timeLeft k.vtlist.decrement _ = _
  rw [VTList.decrement_eq hE h.waits.fits]
  exact DeltaList.timeLeft_tick hE _

theorem timeLeft_step (h : Inv idle none none k) (ha : k.Allowed idle a)
    (hs : ¬ (k.state t).Runnable) (hj : k.timeLeft t = some j) (e : k.step a = some k')
    (hs' : ¬ (k'.state t).Runnable) : ∃ i, k'.timeLeft t = some i ∧ i + a.ticks = j := by
  have hT := touch_step h ha e
  have htc : t ≠ k.currp := by
    rintro rfl
    exact hs (.inr ((h.placed.current _).2 rfl))
  have hkeep : .clock ∉ a.objects k → .timer t ∉ a.objects k → a.ticks = 0 →
      ∃ i, k'.timeLeft t = some i ∧ i + a.ticks = j := fun h1 h2 h3 =>
    ⟨j, by rw [hT.timer h1 t h2, hj], by omega⟩
  have hop : ∀ op : IOp n, .clock ∉ op.objects ∧ .timer t ∉ op.objects := fun op => by
    cases op <;> simp [IOp.objects]
  cases a with
  | call c =>
    have hc : ∀ x ∈ c.objects k, x ≠ .clock ∧ x ≠ .timer t := by
      cases c with
      | mtxUnlock =>
        intro x hx
        obtain ⟨mp, -, rfl⟩ := List.mem_map.1 hx
        simp
      | _ => simp [Call.objects, htc.symm]
    refine hkeep (fun hm => ?_) (fun hm => ?_) rfl
    · rcases List.mem_cons.1 hm with hm | hm
      · cases hm
      · exact (hc _ hm).1 rfl
    · rcases List.mem_cons.1 hm with hm | hm
      · cases hm
      · exact (hc _ hm).2 rfl
  | resume => exact hkeep (by simp [Label.objects]) (by simp [Label.objects, htc]) rfl
  | locked ops resched =>
    refine hkeep (fun hm => ?_) (fun hm => ?_) rfl
    · obtain ⟨op, -, hm⟩ := List.mem_flatMap.1 hm
      exact (hop op).1 hm
    · obtain ⟨op, -, hm⟩ := List.mem_flatMap.1 hm
      exact (hop op).2 hm
  | isr op => exact hkeep (hop op).1 (hop op).2 rfl
  | tick =>
    cases e
    refine ⟨j - 1, by rw [timeLeft_tick h ha.2, hj]; rfl, ?_⟩
    have hpos := (VTList.early_of_expired ha.2).timeLeft_pos hj
    show j - 1 + 1 = j
    omega
  | expire =>
    have e' : k.expire = some k' := e
    unfold expire at e'
    cases hx : k.vtlist.expired with
    | none => rw [hx] at e'; cases e'
    | some p =>
      obtain ⟨x, l⟩ := p
      have hv := VTList.expired_eq_some.1 hx
      rw [hx] at e'
      have hne : x ≠ .thread t := by
        rintro rfl
        cases e'
        exact hs' (.inl (state_wakeup h (limited_of_timeLeft h hs hj) l).1)
      have hl : DeltaList.timeLeft l (.thread t) = some j := by
        rw [← hj, timeLeft, hv, DeltaList.timeLeft_pop hne]
      cases x with
      | user vtp =>
        cases e'
        exact ⟨j, hl, rfl⟩
      | thread tp =>
        cases e'
        exact ⟨j, by rw [timeLeft, vtlist_wakeup]; exact hl, rfl⟩
  | epilogue => exact hkeep (by simp [Label.objects]) (by simp [Label.objects]) rfl

theorem timeLeft_expire (h : Inv idle none none k) (hs : ¬ (k.state t).Runnable)
    (hj : k.timeLeft t = some j) (e : k.expire = some k') (hs' : (k'.state t).Runnable) :
    j = 0 ∧ k'.rdymsg t = RDY_TIMEOUT := by
  unfold expire at e
  cases hx : k.vtlist.expired with
  | none => rw [hx] at e; cases e
  | some p =>
    obtain ⟨x, l⟩ := p
    have hv := VTList.expired_eq_some.1 hx
    rw [hx] at e
    cases x with
    | user vtp =>
      cases e
      exact (hs hs').elim
    | thread tp =>
      cases e
      by_cases ht : t = tp
      · subst ht
        refine ⟨?_, (state_wakeup h (limited_of_timeLeft h hs hj) l).2⟩
        rw [timeLeft, hv, DeltaList.timeLeft, if_pos rfl] at hj
        cases hj
        rfl
      · rw [state_wakeup_of_ne _ ht] at hs'
        exact (hs hs').elim

/-- A thread whose time is up is woken up by the tick handler, after those that are before it in
the timer list. -/
theorem expires (hl : k.vtlist = l) (h : Inv idle none none k) (hs : ¬ (k.state t).Runnable)
    (hj : k.timeLeft t = some 0) : ∃ m k', Steps step (Allowed idle) k
      (List.replicate m .expire) k' ∧ k'.state t = .ready ∧ k'.rdymsg t = RDY_TIMEOUT := by
  induction l generalizing k with
  | nil =>
    rw [timeLeft, hl] at hj
    cases hj
  | cons p l ih =>
    obtain ⟨x, d⟩ := p
    have hd : d = 0 := by
      rw [timeLeft, hl, DeltaList.timeLeft] at hj
      split at hj
      · cases hj
        rfl
      · obtain ⟨r, -, hr⟩ := Option.map_eq_some_iff.1 hj
        omega
    subst hd
    have hx : k.vtlist.expired = some (x, l) := VTList.expired_eq_some.2 hl
    have ha : k.Allowed idle .expire := ⟨h.isr (h.inIsr_of_expired hl), by rw [hx]; rfl⟩
    by_cases hxt : x = .thread t
    · subst hxt
      refine ⟨1, { k with vtlist := l }.wakeup t, Steps.single (by rw [step, expire, hx]) ha, ?_⟩
      exact state_wakeup h (limited_of_timeLeft h hs hj) l
    · obtain ⟨k', he, hI⟩ := h.step ha
      have e' : k.expire = some k' := he
      have hs' : ¬ (k'.state t).Runnable ∧ k'.vtlist = l := by
        unfold expire at e'
        rw [hx] at e'
        cases x with
        | user vtp =>
          cases e'
          exact ⟨hs, rfl⟩
        | thread tp =>
          cases e'
          refine ⟨?_, vtlist_wakeup ..⟩
          rw [state_wakeup_of_ne _ fun he => hxt (by rw [he])]
          exact hs
      obtain ⟨hs', hv⟩ := hs'
      have hj' : k'.timeLeft t = some 0 := by
        rw [← hj, timeLeft, timeLeft, hv, hl, DeltaList.timeLeft_pop hxt]
      obtain ⟨m, k'', hr, hrest⟩ := ih hv hI hs' hj'
      exact ⟨m + 1, k'', .cons he ha hr, hrest⟩

/-! ## Runs -/

def ticks (as : List (Label n)) : Nat := (as.map Label.ticks).sum

variable {main : Fin n} {cnts : Nat → Nat} {as bs : List (Label n)}

/-- **A call that waits** at most `time` ticks: as long as the thread is asleep there have been no
more than these, and fewer when no timer is left to the tick handler. If its timer wakes it up,
there have been exactly these; and when there have been, the rest of the tick handler does it. -/
theorem run_timeout (hne : main ≠ idle) (h : Run main idle cnts as k) {c : Call n}
    (ha : k.Allowed idle (.call c)) (ht : c.timeout = some time) (hi : time ≠ TIME_INFINITE)
    (e : k.step (.call c) = some k₁) (hb : Steps step (fun s a => s.Allowed idle a ∧
      ¬ (s.state k.currp).Runnable) k₁ bs k₂) (hs : ¬ (k₂.state k.currp).Runnable) :
    ticks bs ≤ time.toNat ∧ (k₂.vtlist.expired = none → ticks bs < time.toNat) ∧
      (∀ k₃, k₂.step .expire = some k₃ → (k₃.state k.currp).Runnable →
        ticks bs = time.toNat ∧ k₃.rdymsg k.currp = RDY_TIMEOUT) ∧
      (ticks bs = time.toNat → ∃ m k₃, Steps step (Allowed idle) k₂ (List.replicate m .expire) k₃ ∧
        k₃.state k.currp = .ready ∧ k₃.rdymsg k.currp = RDY_TIMEOUT) := by
  have hI := Run.inv hne h
  have hI₁ := hI.of_step ha e
  have hrun : Inv idle none none k₂ ∧ (¬ (k₂.state k.currp).Runnable →
      ∃ i, k₂.timeLeft k.currp = some i ∧ i + (0 + ticks bs) = time.toNat) := by
    refine hb.inv_weight (I := fun j s => Inv idle none none s ∧ (¬ (s.state k.currp).Runnable →
      ∃ i, s.timeLeft k.currp = some i ∧ i + j = time.toNat)) Label.ticks ?_ ⟨hI₁, fun hs => ?_⟩
    · rintro j s a s' ⟨hI, hJ⟩ ⟨ha, hs⟩ he
      refine ⟨hI.of_step ha he, fun hs' => ?_⟩
      obtain ⟨i, hi, hij⟩ := hJ hs
      obtain ⟨i', hi', hii⟩ := timeLeft_step hI ha hs hi he hs'
      exact ⟨i', hi', by omega⟩
    · exact ⟨_, timeLeft_call hI ha.1 ht hi e hs, rfl⟩
  obtain ⟨hI₂, hJ⟩ := hrun
  obtain ⟨i, hi, hij⟩ := hJ hs
  refine ⟨by omega, fun he => ?_, fun k₃ he hr => ?_, fun hj => ?_⟩
  · have := (VTList.early_of_expired he).timeLeft_pos hi
    omega
  · obtain ⟨rfl, hm⟩ := timeLeft_expire hI₂ hs hi he hr
    exact ⟨by omega, hm⟩
  · obtain rfl : i = 0 := by omega
    exact expires rfl hI₂ hs hi

/-- The second thread's two ticks are over. -/
theorem run_timeout_two : ∃ k k₁ k₂, Run (1 : Fin 3) 0 (fun _ => 0) (lockedRun.take 2) k ∧
    k.step (.call (.semWaitTimeout 0 2)) = some k₁ ∧
    Steps step (Allowed 0) k₁ [.tick, .epilogue, .tick] k₂ ∧ k₂.state 2 = .wtsem 0 ∧
    ∃ m k₃, Steps step (Allowed 0) k₂ (List.replicate m .expire) k₃ ∧ k₃.state 2 = .ready ∧
      k₃.rdymsg 2 = RDY_TIMEOUT := by
  have h : ((exec step (Allowed 0) (chSysInit (1 : Fin 3) 0 fun _ => 0) (lockedRun.take 2)).any
      fun k => k.Allowed 0 (.call (.semWaitTimeout 0 2)) ∧ k.currp = 2 ∧
        ((k.step (.call (.semWaitTimeout 0 2))).any fun k₁ => (exec step (fun s a =>
          s.Allowed 0 a ∧ ¬ (s.state k.currp).Runnable) k₁ [.tick, .epilogue, .tick]).any
            fun k₂ => k₂.state 2 = .wtsem 0) = true) = true := by decide +kernel
  obtain ⟨k, he, h⟩ := (Option.any_eq_true _ _).1 h
  obtain ⟨ha, hc, h⟩ := of_decide_eq_true h
  obtain ⟨k₁, he₁, h⟩ := (Option.any_eq_true _ _).1 h
  obtain ⟨k₂, he₂, h⟩ := (Option.any_eq_true _ _).1 h
  have hs : k₂.state 2 = .wtsem 0 := of_decide_eq_true h
  have hb := steps_of_exec he₂
  refine ⟨k, k₁, k₂, steps_of_exec he, he₁, hb.mono fun _ _ h => h.1, hs, ?_⟩
  rw [← hc] at hs ⊢
  refine (run_timeout (by decide) (steps_of_exec he) ha rfl (by decide) he₁ hb ?_).2.2.2 rfl
  rw [hs]
  rintro (h | h) <;> cases h

end Kern

end RobotPws.Kernel
