import RobotPws.Kernel.Machine

/-!
# Whole runs of the kernel

From the end of `chSysInit` on, whatever the threads call and whenever interrupts come: each thread
is in the queue of its state, nothing the kernel looks for is missing (`run_safe`), the running
thread is the one with the greatest priority (`run_top`), and priorities are inherited along the
mutexes exactly (`run_inherits`).
-/

namespace RobotPws.Kernel

open RobotPws.Lib

variable {n : Nat}

namespace Kern

/-- Runs after `chSysInit`. -/
abbrev Run (main idle : Fin n) (cnts : Nat → Nat) (as : List (Label n)) (k : Kern n) : Prop :=
  Steps step (Allowed idle) (chSysInit main idle cnts) as k

variable {main idle : Fin n} {cnts : Nat → Nat} {as : List (Label n)} {k : Kern n}

theorem Run.inv (hne : main ≠ idle) (h : Run main idle cnts as k) : Inv idle none none k :=
  Steps.inv (fun _ _ _ hI ha he => hI.of_step ha he) h (inv_chSysInit hne cnts)

/-- **In every run** one thread is running, each thread is linked once into the queue of its state
and into no other, and no step that is allowed finds a queue empty or a mutex without an owner, or
loops. -/
theorem run_safe (hne : main ≠ idle) (h : Run main idle cnts as k) :
    (∀ t, k.state t = .current ↔ t = k.currp) ∧ (∀ q, (k.queue q).Nodup) ∧
      (∀ q t, t ∈ k.queue q ↔ (k.state t).queue = some q) ∧ (k.state idle).Runnable ∧
      ∀ a, k.Allowed idle a → ∃ k', k.step a = some k' := by
  have hI := Run.inv hne h
  refine ⟨hI.placed.current, hI.placed.located.nodup, fun q t => hI.placed.mem_iff, hI.idle,
    fun a ha => ?_⟩
  obtain ⟨k', he, -⟩ := hI.step ha
  exact ⟨k', he⟩

/-- A second thread takes the mutex of `main`, after its wait for a semaphore has timed out. -/
def lockedRun : List (Label 3) :=
  [.call (.mtxLock 0), .call (.create 2 100), .call (.semWaitTimeout 0 2), .tick, .epilogue, .tick,
    .expire, .epilogue, .resume, .call (.mtxLock 0)]

theorem run_safe_locked : ∃ k, Run (1 : Fin 3) 0 (fun _ => 0) lockedRun k ∧
    k.state 2 = .wtmtx 0 ∧ 2 ∈ k.queue (.mtx 0) := by
  have h : (exec step (Allowed 0) (chSysInit (1 : Fin 3) 0 fun _ => 0) lockedRun).any
      (fun k => k.state 2 = .wtmtx 0) = true := by decide +kernel
  obtain ⟨k, he, hs⟩ := (Option.any_eq_true _ _).1 h
  have hr : Run (1 : Fin 3) 0 (fun _ => 0) lockedRun k := steps_of_exec he
  have hs' : k.state 2 = .wtmtx 0 := of_decide_eq_true hs
  refine ⟨k, hr, hs', ?_⟩
  rw [(run_safe (by decide) hr).2.2.1, hs']
  rfl

/-! ## The thread that runs -/

/-- No locked section has ended without a reschedule since an interrupt handler was left, or a
locked section ended with one. -/
def tidy : List (Label n) → Bool :=
  List.foldl (fun b a => match a with
    | .epilogue => true
    | .locked _ resched => resched
    | _ => b) true

/-- One step: only a locked section that ends without a reschedule can leave a thread behind with a
greater priority than the running one. -/
theorem Inv.top_step {k' : Kern n} (hI : Inv idle none none k) {a : Label n}
    (ha : k.Allowed idle a) (he : k.step a = some k') (hi : k'.inIsr = false)
    (hT : k.inIsr = false → k.Top) (hl : ∀ ops, a ≠ .locked ops false) : k'.Top := by
  have hsound : ∀ {r : Option (Kern n)}, Sound idle k r → r = some k' → k.inIsr = false → k'.Top :=
    fun hs he hi => by
      obtain ⟨k₁, h1, -, h2⟩ := hs
      cases h1.symm.trans he
      exact h2 (hT hi)
  cases a with
  | call c =>
    obtain ⟨hU, hi₀, hne, hc⟩ := ha
    exact hsound (sound_call hI hU hi₀ hne hc) he hi₀
  | resume =>
    refine hsound (sound_resume hI ha) he ?_
    cases hin : k.inIsr with
    | false => rfl
    | true => exact (ha (hI.isr hin)).elim
  | locked ops resched =>
    obtain ⟨hU, hi₀, -, hops⟩ := ha
    cases resched with
    | false => exact (hl ops rfl).elim
    | true => exact hsound ((soundI_iops hI hops).reschedule hU hi₀) he hi₀
  | isr op =>
    obtain ⟨k₁, -, rfl⟩ := Option.map_eq_some_iff.1 he
    cases hi
  | tick => cases he; cases hi
  | expire =>
    obtain ⟨⟨x, l⟩, hx⟩ := Option.isSome_iff_exists.1 ha.2
    have hin := hI.inIsr_of_expired (VTList.expired_eq_some.1 hx)
    have hin' : k'.inIsr = k.inIsr := by
      have he' : k.expire = some k' := he
      unfold expire at he'
      rw [hx] at he'
      cases x with
      | user vtp => cases he'; rfl
      | thread tp =>
        cases he'
        unfold wakeup
        split
        · rfl
        · unfold dequeue
          split <;> rfl
        · unfold dequeue
          split <;> rfl
        · rfl
    rw [hin', hin] at hi
    cases hi
  | epilogue =>
    obtain ⟨k₁, h1, -, h2⟩ := sound_irqEpilogue hI ha.1 ha.2
    cases h1.symm.trans he
    exact h2

/-- A locked section that ends with a reschedule puts everything right. -/
theorem Inv.top_locked {k' : Kern n} (hI : Inv idle none none k) {ops : List (IOp n)}
    (ha : k.Allowed idle (.locked ops true)) (he : k.step (.locked ops true) = some k') :
    k'.Top := by
  obtain ⟨hU, hi, -, hops⟩ := ha
  obtain ⟨k₁, h1, hI', hin, hcur, hcont⟩ := soundI_iops hI hops
  obtain ⟨k₂, h2, -, hT⟩ := hI'.chSchRescheduleS (by rw [Unlocked, hcont, hcur]; exact hU)
    (hin.trans hi)
  have he' : (k.iops ops).bind Kern.chSchRescheduleS = some k' := he
  rw [h1, Option.bind_some] at he'
  cases h2.symm.trans he'
  exact hT

/-- **Outside of interrupt handlers** no thread that is ready has a greater priority than the
running one, except after a locked section that was left without a reschedule, until the next
interrupt. -/
theorem run_top (hne : main ≠ idle) (h : Run main idle cnts as k) (ht : tidy as = true)
    (hi : k.inIsr = false) : ∀ t, k.state t = .ready → k.prio t ≤ k.prio k.currp := by
  have hrun : Inv idle none none k ∧ (tidy as = true → k.inIsr = false → k.Top) := by
    refine Steps.inv_foldl (I := fun b k => Inv idle none none k ∧
      (b = true → k.inIsr = false → k.Top)) _ ?_ h ⟨inv_chSysInit hne cnts, fun _ _ => ?_⟩
    · rintro b s a s' ⟨hI, hT⟩ ha he
      refine ⟨hI.of_step ha he, fun hb hi => ?_⟩
      cases a with
      | epilogue =>
        obtain ⟨k₁, h1, -, h2⟩ := sound_irqEpilogue hI ha.1 ha.2
        cases h1.symm.trans he
        exact h2
      | locked ops resched =>
        cases resched with
        | false => cases hb
        | true => exact hI.top_locked ha he
      | _ => exact hI.top_step ha he hi (hT hb) (by simp)
    · intro t ht
      rw [chSysInit_eq hne] at ht ⊢
      obtain rfl : t = idle := List.mem_singleton.1 ht
      dsimp only
      rw [if_pos rfl, if_neg hne, if_pos rfl]
      decide
  intro t hs
  exact hrun.2 ht hi t (hrun.1.placed.mem_iff.2 (by rw [hs]; rfl))

/-- The thread that has been woken up by the timer runs, and `main` is ready. -/
theorem run_top_timeout : ∃ k, Run (1 : Fin 3) 0 (fun _ => 0) (lockedRun.take 9) k ∧
    k.state 1 = .ready ∧ k.currp = 2 ∧ k.prio 1 ≤ k.prio 2 := by
  have h : (exec step (Allowed 0) (chSysInit (1 : Fin 3) 0 fun _ => 0) (lockedRun.take 9)).any
      (fun k => k.state 1 = .ready ∧ k.currp = 2 ∧ k.inIsr = false) = true := by decide +kernel
  obtain ⟨k, he, hs⟩ := (Option.any_eq_true _ _).1 h
  have hr : Run (1 : Fin 3) 0 (fun _ => 0) (lockedRun.take 9) k := steps_of_exec he
  obtain ⟨h1, h2, h3⟩ := of_decide_eq_true hs
  refine ⟨k, hr, h1, h2, ?_⟩
  rw [← h2]
  exact run_top (by decide) hr (by decide) h3 1 h1

/-! ## Priorities -/

/-- **The priority of a thread** is the greatest of its own and those of all threads that wait,
directly or through others, for a mutex it has locked. A mutex has the one owner it is in the list
of, and nobody waits for a free one. -/
theorem run_inherits (hne : main ≠ idle) (h : Run main idle cnts as k) (t : Fin n) :
    IsGreatest {p | ∃ w, WaitsFor (k.waitFor none) w t ∧ k.realprio w = p} (k.prio t) ∧
      (k.mtxlist t).Nodup ∧ (∀ mp, k.owner mp = some t ↔ mp ∈ k.mtxlist t) ∧
      ∀ mp, k.state t = .wtmtx mp → ∃ u, k.owner mp = some u ∧ k.prio t ≤ k.prio u := by
  have hI := Run.inv hne h
  refine ⟨hI.mtxs.inherits.isGreatest (by simp), hI.mtxs.nodup t, fun mp => hI.mtxs.owns mp t,
    fun mp hs => ?_⟩
  obtain ⟨u, hu⟩ := Option.ne_none_iff_exists'.1 (hI.mtxs.owned t mp hs (by simp))
  exact ⟨u, hu, hI.mtxs.inherits.wait_le (waitFor_eq_some.2 ⟨by simp, mp, hs, hu⟩)⟩

/-- `main` has the priority of the thread that waits for its mutex. -/
theorem run_inherits_locked : ∃ k, Run (1 : Fin 3) 0 (fun _ => 0) lockedRun k ∧
    k.prio 1 = 100 ∧ k.realprio 1 = 64 ∧
      IsGreatest {p | ∃ w, WaitsFor (k.waitFor none) w 1 ∧ k.realprio w = p} 100 := by
  have h : (exec step (Allowed 0) (chSysInit (1 : Fin 3) 0 fun _ => 0) lockedRun).any
      (fun k => k.prio 1 = 100 ∧ k.realprio 1 = 64) = true := by decide +kernel
  obtain ⟨k, he, hs⟩ := (Option.any_eq_true _ _).1 h
  have hr : Run (1 : Fin 3) 0 (fun _ => 0) lockedRun k := steps_of_exec he
  obtain ⟨h1, h2⟩ := of_decide_eq_true hs
  refine ⟨k, hr, h1, h2, ?_⟩
  have := (run_inherits (by decide) hr 1).1
  rwa [h1] at this

end Kern

end RobotPws.Kernel
