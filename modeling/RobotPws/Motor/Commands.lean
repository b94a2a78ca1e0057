import RobotPws.Motor.Safety

/-!
# One command at a time

What a single `forward`, `backward`, `turnLeft` or `turnRight` does between its
dispatch and its return, whatever ticks and other timers come in between. The
thread's own steps are shown as pairs of the states around them (`threadSteps`);
`Serving` says where in the command the thread is and which calls it has made.

A command that `motorActive` lets through takes the semaphores it needs without
waiting exactly when all of its sides are free (`StartOk`), and the ticks it
hands to `chVTSet` are its seconds exactly from 1 to 2147.
-/

namespace RobotPws.Motor

open RobotPws.Lib RobotPws.Kernel RobotPws.Wifly RobotPws.Main

/-- The sides a command concerns. -/
def sides : Drive → List Side
  | .forward | .backward => [.left, .right]
  | .turnLeft => [.left]
  | .turnRight => [.right]

/-- The call a thread makes next. -/
def Thread.call {σ : Type} : Thread σ → Option Instr
  | run (i :: _) _ => some i
  | _ => none

def Sys.free {σ : Type} (s : Sys σ) (side : Side) : Prop :=
  (s.sem side).chBSemGetStateI = false

instance {σ : Type} (s : Sys σ) (side : Side) : Decidable (s.free side) :=
  inferInstanceAs (Decidable (_ = false))

section
variable {σ : Type} {ch : Channels} {cb : ProtocolCallback Op σ} {side : Side} {s t : Sys σ}
  {a : Act}

theorem Sys.free_iff : s.free side ↔ 0 < (s.sem side).cnt := by
  simp [Sys.free, BinarySemaphore.chBSemGetStateI]

/-- The step, if it is one of the thread. -/
def threadStep (s : Sys σ) : Act → Sys σ → List (Sys σ × Sys σ)
  | .thread, t => [(s, t)]
  | _, _ => []

variable (ch cb) in
/-- The steps of the thread in a run, each as the states before and after it. -/
def threadSteps : Sys σ → List Act → List (Sys σ × Sys σ) := observe (Sys.step ch cb) threadStep

/-- The calls made in these steps. -/
def calls (ps : List (Sys σ × Sys σ)) : List Instr := ps.filterMap fun p => p.1.thread.call

/-- The call made in a step. -/
def Sys.callMade (s : Sys σ) : Act → List Instr
  | .thread => s.thread.call.toList
  | _ => []

theorem calls_threadStep (ps : List (Sys σ × Sys σ)) (s : Sys σ) (a : Act) (t : Sys σ) :
    calls (ps ++ threadStep s a t) = calls ps ++ s.callMade a := by
  cases a with
  | thread => cases hc : s.thread.call <;> simp [calls, threadStep, Sys.callMade, hc]
  | _ => simp [calls, threadStep, Sys.callMade]

/-- Outputs, semaphores and timers stay as they are. -/
structure Leaves (s t : Sys σ) : Prop where
  ccr : t.ccr = s.ccr
  sem : t.sem = s.sem
  vtlist : t.vtlist = s.vtlist

theorem leaves_of_call (hm : Sys.Move ch cb s .thread t) (hc : s.thread.call = none) :
    Leaves s t := by
  cases hm with
  | take side code x _ hth | suspend side code x _ hth | threadCall i code x _ hth =>
    rw [hth] at hc
    cases hc
  | _ => exact ⟨rfl, rfl, rfl⟩

/-- The step arms the side's timer, with one of its outputs on. -/
structure Starts (ch : Channels) (side : Side) (s t : Sys σ) : Prop where
  arms : ∃ time, s.thread.call = some (.chVTSet side time)
  outputs : ¬ (t.ccr (ch.value side.pin1) = 0 ∧ t.ccr (ch.value side.pin2) = 0)
  linked : .motor side ∈ DeltaList.keys t.vtlist

theorem Owned.starts {o : Owner} (h : Owned ch side s o) {time : UInt32}
    (hm : Sys.Move ch cb s .thread t) (hc : s.thread.call = some (.chVTSet side time)) :
    Starts ch side s t := by
  cases hm with
  | threadCall i code x _ hth =>
    rw [hth] at hc
    obtain rfl := Option.some.inj hc
    obtain ⟨d, rfl, hd⟩ := h.arming hth
    refine ⟨⟨time, by rw [hth]; rfl⟩, fun ho => ?_, ?_⟩
    · have h1 : d.1.Shows (s.ccr (ch.value side.pin1)) := h.output1
      have h2 : d.2.Shows (s.ccr (ch.value side.pin2)) := h.output2
      simp only [Sys.execute] at ho
      rw [ho.1] at h1
      rw [ho.2] at h2
      obtain ⟨d1, d2⟩ := d
      cases d1 <;> cases d2 <;> simp_all [Duty.Shows]
    · simp only [Sys.execute, VTList.chVTSetI]
      rw [(DeltaList.keys_insert ..).mem_iff]
      exact List.mem_cons_self
  | take _ _ _ _ hth | suspend _ _ _ _ hth => rw [hth] at hc; cases hc
  | finish _ _ _ hth | leftActive _ _ hth | leftInactive _ _ hth | rightActive _ _ hth
  | enter _ _ _ _ hth | leave _ _ hth => rw [hth] at hc; cases hc

/-! ## Free sides -/

theorem execute_sem (s : Sys σ) {i : Instr} (hi : i ≠ .chBSemSignalI side) :
    (s.execute ch i).sem side = s.sem side := by
  cases i with
  | chBSemSignalI side' => exact Function.update_of_ne (fun he => hi (by rw [he])) _ _
  | _ => rfl

theorem execute_free (h : s.free side) (i : Instr) : (s.execute ch i).free side := by
  by_cases hi : i = .chBSemSignalI side
  · subst hi
    rw [Sys.free_iff] at h ⊢
    have hlt : ¬ (s.sem side).cnt < 1 := by omega
    simp only [Sys.execute, BinarySemaphore.chBSemSignalI, if_neg hlt, Function.update_self]
    exact h
  · rw [Sys.free, execute_sem s hi]
    exact h

theorem free_of_move (h : s.free side) (hm : Sys.Move ch cb s a t)
    (hw : a = .thread → s.thread.call ≠ some (.chBSemWait side)) : t.free side := by
  cases hm with
  | threadCall i code x => exact execute_free (s := { s with thread := .run code x }) h i
  | isrCall i code => exact execute_free (s := { s with isr := .callback code }) h i
  | take side' code x _ hth | suspend side' code x _ hth =>
    have hne : side ≠ side' := by
      rintro rfl
      rw [hth] at hw
      exact hw rfl rfl
    simpa only [Sys.free, Function.update_of_ne hne] using h
  | _ => exact h

end

/-! ## Where in the command the thread is -/

/-- The calls of an accepted command. -/
def driveCode (d : Drive) (sec : Int) : List Instr :=
  (motorCode (d.op (wrap32 (sec * 1000)))).getD []

theorem motorCode_drive (d : Drive) (sec : Int) :
    motorCode (d.op (wrap32 (sec * 1000))) = some (driveCode d sec) := by
  cases d <;> rfl

/-- What is left of the command once it has been accepted. -/
def accepted (d : Drive) (sec : Int) : Point := .act (d.op (wrap32 (sec * 1000))) .ok

/-- The thread serves the command `d` for `sec` seconds, or has served it, and has
made these calls. -/
inductive Serving (d : Drive) (sec : Int) : Thread Point → List Instr → Prop where
  | leftActive : sec ≠ 0 → Serving d sec (.callback (.drive d sec)) []
  | rightActive : sec ≠ 0 → Serving d sec (.rightActive (.drive d sec)) []
  | refused : Serving d sec (.callback (.done .error)) []
  | accepted : sec ≠ 0 → Serving d sec (.callback (accepted d sec)) []
  | running (made code : List Instr) : sec ≠ 0 → made ++ code = driveCode d sec →
      Serving d sec (.run code (accepted d sec)) made
  | waiting (made : List Instr) (side : Side) (code : List Instr) : sec ≠ 0 →
      made ++ code = driveCode d sec →
      Serving d sec (.suspended side code (accepted d sec)) made
  | served : sec ≠ 0 → Serving d sec (.callback (.done .ok)) (driveCode d sec)
  | returned (made : List Instr) : Serving d sec .idle made

section
variable {ch : Channels} {side : Side} {s t : Sys Point} {a : Act} {d : Drive} {sec : Int}
  {made : List Instr}

theorem serving_start (d : Drive) (args : List UInt8) :
    Serving d (atoi args) (.callback (callback.start d.id args)) [] := by
  have hs : callback.start d.id args = startDrive d args := start_drive d args
  rw [hs, startDrive]
  split
  · exact .refused
  · next h0 => exact .leftActive h0

/-- The command is not waiting for a call of the rest of the firmware. -/
theorem Serving.resume_eq {x : Point} (h : Serving d sec (.callback x) made) (r : Return) :
    Sys.resume callback x r = none := by
  cases h with
  | leftActive | refused | served => cases r <;> rfl
  | accepted => cases r <;> cases d <;> rfl

theorem Serving.busyTest {x : Point} (h : Serving d sec (.callback x) made)
    (hr : callback.req x = .call .motorActive) : x = .drive d sec ∧ made = [] ∧ sec ≠ 0 := by
  cases h with
  | leftActive h0 => exact ⟨rfl, rfl, h0⟩
  | refused | served => cases hr
  | accepted => cases d <;> cases hr

/-- The functions of this file are entered when the command has been accepted. -/
theorem Serving.enters {x : Point} {op : Op} {code : List Instr}
    (h : Serving d sec (.callback x) made) (hr : callback.req x = .call op)
    (hc : motorCode op = some code) :
    x = Motor.accepted d sec ∧ made = [] ∧ sec ≠ 0 ∧ code = driveCode d sec := by
  cases h with
  | leftActive => cases hr; cases hc
  | refused | served => cases hr
  | accepted h0 =>
    have hop : d.op (wrap32 (sec * 1000)) = op := by cases d <;> cases hr <;> rfl
    rw [← hop, motorCode_drive] at hc
    exact ⟨rfl, rfl, h0, (Option.some.inj hc).symm⟩

theorem Serving.ready {th : Thread Point} (h : Serving d sec th made) (side : Side) :
    Serving d sec (th.ready side) made := by
  cases h with
  | waiting made side' code h0 he =>
    rw [Thread.ready]
    split
    · exact .running _ _ h0 he
    · exact .waiting _ _ _ h0 he
  | leftActive h0 => exact .leftActive h0
  | rightActive h0 => exact .rightActive h0
  | refused => exact .refused
  | accepted h0 => exact .accepted h0
  | running _ _ h0 he => exact .running _ _ h0 he
  | served h0 => exact .served h0
  | returned => exact .returned _

theorem Serving.execute {s : Sys Point} (h : Serving d sec s.thread made) (i : Instr) :
    Serving d sec (s.execute ch i).thread made := by
  cases i with
  | chBSemSignalI side =>
    simp only [Sys.execute]
    split
    · exact h.ready side
    · exact h
  | _ => exact h

theorem Serving.step (h : Serving d sec s.thread made) (hm : Sys.Move ch callback s a t)
    (ha : ∀ id args, a ≠ .command id args) :
    Serving d sec t.thread (made ++ s.callMade a) := by
  cases hm with
  | command id args => exact absurd rfl (ha id args)
  | ret r x x' _ hth hr =>
    rw [hth] at h
    rw [h.resume_eq r] at hr
    cases hr
  | finish x m _ hth => exact .returned _
  | leftActive x _ hth hr =>
    rw [hth] at h
    rw [Sys.callMade, hth]
    obtain ⟨rfl, rfl, h0⟩ := h.busyTest hr
    exact .rightActive h0
  | leftInactive x _ hth hr =>
    rw [hth] at h
    rw [Sys.callMade, hth]
    obtain ⟨rfl, rfl, h0⟩ := h.busyTest hr
    exact .accepted h0
  | rightActive x _ hth =>
    rw [hth] at h
    rw [Sys.callMade, hth]
    cases h with
    | rightActive h0 =>
      cases (s.sem .right).chBSemGetStateI
      · exact .accepted h0
      · exact .refused
  | enter x op code _ hth hr hc =>
    rw [hth] at h
    rw [Sys.callMade, hth]
    obtain ⟨rfl, rfl, h0, hcode⟩ := h.enters hr hc
    exact .running _ _ h0 hcode
  | leave x _ hth =>
    rw [hth] at h
    rw [Sys.callMade, hth]
    cases h with
    | running made _ h0 he =>
      rw [List.append_nil] at he
      subst he
      simp only [Thread.call, Option.toList, List.append_nil]
      exact .served h0
  | take side' code x _ hth =>
    rw [hth] at h
    rw [Sys.callMade, hth]
    cases h with
    | running made _ h0 he => exact .running _ _ h0 (by simpa [Thread.call] using he)
  | suspend side' code x _ hth =>
    rw [hth] at h
    rw [Sys.callMade, hth]
    cases h with
    | running made _ h0 he => exact .waiting _ _ _ h0 (by simpa [Thread.call] using he)
  | threadCall i code x _ hth =>
    rw [hth] at h
    rw [Sys.callMade, hth]
    cases h with
    | running made _ h0 he =>
      refine Serving.execute ?_ i
      exact .running _ _ h0 (by simpa [Thread.call] using he)
  | isrCall i code =>
    rw [show s.callMade .isr = [] from rfl, List.append_nil]
    exact Serving.execute (s := { s with isr := .callback code }) h i
  | _ => simpa [Sys.callMade] using h

/-! ## The busy test -/

/-- The command that the busy test lets through in the next step of the thread. -/
def letThrough (s : Sys Point) : Option Drive :=
  match s.thread with
  | .callback (.drive d _) => if (s.sem .left).chBSemGetStateI then none else some d
  | .rightActive (.drive d _) => if (s.sem .right).chBSemGetStateI then none else some d
  | _ => none

/-- The busy test lets a command through only if all of its sides are free. -/
def StartOk (s : Sys Point) : Act → Prop
  | .thread => ∀ d ∈ letThrough s, ∀ side ∈ sides d, s.free side
  | _ => True

instance (s : Sys Point) : ∀ a, Decidable (StartOk s a)
  | .thread => inferInstanceAs (Decidable (∀ d ∈ letThrough s, ∀ side ∈ sides d, s.free side))
  | .command .. | .ret _ | .tick | .isr | .chVTSetI .. | .chVTResetI _ | .motorSetSpeed _ =>
    .isTrue trivial

/-- The direction a command drives its sides in. -/
def direction : Drive → Direction
  | .backward => .backward
  | _ => .forward

theorem mem_driveCode {i : Instr} : i ∈ driveCode d sec ↔ ∃ side ∈ sides d,
    i ∈ motor_on side (direction d) ∨ i = .chVTSet side (ms2st (wrap32 (sec * 1000))) := by
  cases d <;> simp [driveCode, motorCode, Drive.op, motorForwardS, motorBackwardS,
    motorLeftForwardS, motorLeftBackwardS, motorRightForwardS, motorRightBackwardS, motor_left_on,
    motor_right_on, direction, sides, or_assoc]

theorem wait_mem_driveCode (d : Drive) (sec : Int) (side : Side) :
    .chBSemWait side ∈ driveCode d sec ↔ side ∈ sides d := by
  rw [mem_driveCode]
  constructor
  · rintro ⟨side', hside, hm | hm⟩
    · cases hd : direction d <;> rw [hd] at hm <;> simp [motor_on] at hm <;> exact hm ▸ hside
    · cases hm
  · intro hside
    exact ⟨side, hside, .inl (by cases direction d <;> exact List.mem_cons_self)⟩

theorem signal_notMem_driveCode (d : Drive) (sec : Int) (side : Side) :
    .chBSemSignalI side ∉ driveCode d sec := by
  rw [mem_driveCode]
  rintro ⟨side', -, hm | hm⟩
  · cases hd : direction d <;> rw [hd] at hm <;> simp [motor_on] at hm
  · cases hm

theorem wait_once {code : List Instr} (h : made ++ .chBSemWait side :: code = driveCode d sec) :
    .chBSemWait side ∉ code := by
  have hcount : (driveCode d sec).count (.chBSemWait side) ≤ 1 := by
    cases d <;> cases side <;> exact Nat.le_of_ble_eq_true rfl
  rw [← h, List.count_append, List.count_cons_self] at hcount
  rw [← List.count_eq_zero]
  omega

theorem set_mem_driveCode (sec : Int) (hside : side ∈ sides d) :
    .chVTSet side (ms2st (wrap32 (sec * 1000))) ∈ driveCode d sec :=
  mem_driveCode.2 ⟨side, hside, .inr rfl⟩

/-- The semaphores the command still takes are free. -/
structure Unblocked (d : Drive) (sec : Int) (s : Sys Point) : Prop where
  accepted : s.thread = .callback (accepted d sec) → ∀ side ∈ sides d, s.free side
  running : ∀ side, .chBSemWait side ∈ s.thread.code → s.free side
  notWaiting : ∀ side, s.thread.waitsFor side = false

theorem Unblocked.of_eq (h : Unblocked d sec s) (hth : t.thread = s.thread)
    (hfree : ∀ side, s.free side → t.free side) : Unblocked d sec t where
  accepted he side hside := hfree side (h.accepted (hth ▸ he) side hside)
  running side hside := hfree side (h.running side (hth ▸ hside))
  notWaiting side := by rw [hth]; exact h.notWaiting side

theorem Unblocked.start (hth : t.thread = .callback (Motor.accepted d sec))
    (hfree : ∀ side ∈ sides d, t.free side) : Unblocked d sec t where
  accepted _ := hfree
  running side hside := by rw [hth] at hside; cases hside
  notWaiting side := by rw [hth]; rfl

/-- The thread is outside the functions of this file and has not been let through. -/
theorem Unblocked.outside (hth : t.thread.code = []) (hw : ∀ side, t.thread.waitsFor side = false)
    (hne : t.thread ≠ .callback (Motor.accepted d sec)) : Unblocked d sec t where
  accepted he := absurd he hne
  running side hside := by rw [hth] at hside; cases hside
  notWaiting := hw

theorem execute_thread {σ : Type} {s : Sys σ} (h : ∀ side, s.thread.waitsFor side = false)
    (i : Instr) : (s.execute ch i).thread = s.thread := by
  cases i with
  | chBSemSignalI side =>
    simp only [Sys.execute]
    split
    · cases hth : s.thread with
      | suspended side' code x =>
        have hw := h side'
        rw [hth] at hw
        simp [Thread.waitsFor] at hw
      | _ => rfl
    · rfl
  | _ => rfl

/-- A step of a command that is let through only if its sides are free. -/
theorem Unblocked.step (h : Unblocked d sec s) (hs : Serving d sec s.thread made)
    (hc : StartOk s a) (hm : Sys.Move ch callback s a t) (ha : ∀ id args, a ≠ .command id args) :
    Unblocked d sec t := by
  cases hm with
  | command id args => exact absurd rfl (ha id args)
  | ret r x x' _ hth hr =>
    rw [hth] at hs
    rw [hs.resume_eq r] at hr
    cases hr
  | finish | leftActive => exact .outside rfl (fun _ => rfl) (by simp)
  | leftInactive x _ hth hr hl =>
    rw [hth] at hs
    obtain ⟨rfl, -, -⟩ := hs.busyTest hr
    refine .start rfl fun side hside => ?_
    exact hc d (by simp [letThrough, hth, hl]) side hside
  | rightActive x _ hth =>
    rw [hth] at hs
    cases hs with
    | rightActive =>
      cases hr : (s.sem .right).chBSemGetStateI with
      | false =>
        refine .start rfl fun side hside => ?_
        exact hc d (by simp [letThrough, hth, hr]) side hside
      | true => exact .outside rfl (fun _ => rfl) (by simp [callback, Point.result, Motor.accepted])
  | enter x op code _ hth hr hcode =>
    rw [hth] at hs
    obtain ⟨rfl, -, -, rfl⟩ := hs.enters hr hcode
    refine ⟨fun he => (by cases he), fun side hside => ?_, fun _ => rfl⟩
    exact h.accepted hth side ((wait_mem_driveCode d sec side).1 hside)
  | leave x _ hth =>
    rw [hth] at hs
    cases hs with
    | running =>
      exact .outside rfl (fun _ => rfl) (by simp [callback, Point.result, Motor.accepted])
  | take side' code x hi hth hcnt =>
    have hm : Sys.Move ch callback s .thread _ := .take side' code x hi hth hcnt
    rw [hth] at hs
    cases hs with
    | running made _ h0 he =>
      refine ⟨fun he => (by cases he), fun side hside => ?_, fun _ => rfl⟩
      have hne : side' ≠ side := by
        rintro rfl
        exact wait_once he hside
      refine free_of_move (h.running side ?_) hm fun _ => ?_
      · rw [hth]; exact List.mem_cons_of_mem _ hside
      · rw [hth]; simpa [Thread.call] using hne
  | suspend side' code x _ hth hcnt =>
    have hfree := h.running side' (by rw [hth]; exact List.mem_cons_self)
    rw [Sys.free_iff] at hfree
    omega
  | threadCall i code x _ hth hi =>
    have he : (Sys.execute ch { s with thread := .run code x } i).thread = .run code x :=
      execute_thread (fun _ => rfl) i
    refine ⟨fun h' => ?_, fun side hside => ?_, fun side => ?_⟩
    · rw [he] at h'; cases h'
    · rw [he] at hside
      refine execute_free (s := { s with thread := .run code x }) (h.running side ?_) i
      rw [hth]
      exact List.mem_cons_of_mem _ hside
    · rw [he]; rfl
  | isrCall i code =>
    exact h.of_eq (execute_thread (s := { s with isr := .callback code }) h.notWaiting i)
      fun side hf => execute_free (s := { s with isr := .callback code }) hf i
  | _ => exact h.of_eq rfl fun _ hf => hf

/-- The thread is never stuck in a command whose semaphores are free. -/
theorem Unblocked.enabled (h : Unblocked d sec s) (hs : Serving d sec s.thread made)
    (hi : s.isr = .idle) : s.thread = .idle ∨ (s.step ch callback .thread).isSome = true := by
  rw [Sys.step, if_pos hi, Sys.threadStep]
  have hw := h.notWaiting
  cases hth : s.thread with
  | idle => exact .inl rfl
  | suspended side code x =>
    have := hw side
    rw [hth] at this
    simp [Thread.waitsFor] at this
  | callback x =>
    rw [hth] at hs
    refine .inr ?_
    cases hs with
    | leftActive =>
      simp only [callback, Point.req]
      split <;> rfl
    | accepted => cases d <;> rfl
    | refused | served => rfl
  | rightActive x => exact .inr rfl
  | run code x =>
    refine .inr ?_
    cases code with
    | nil => rfl
    | cons i code => cases i <;> rfl

/-! ## Runs -/

/-- A state reached, and the steps of the thread since the dispatch of the
command. -/
structure Traced (ch : Channels) (ccr : Nat → Nat) (d : Drive) (sec : Int) (s : Sys Point)
    (ps : List (Sys Point × Sys Point)) : Prop where
  reach : Reach (Sys.step ch callback) Always (Sys.init ch ccr) s
  serving : Serving d sec s.thread (calls ps)
  moves : ∀ p ∈ ps, Sys.Move ch callback p.1 .thread p.2
  owned : ∀ p ∈ ps, ∀ side, ∃ o, Owned ch side p.1 o

variable {ccr : Nat → Nat} {ps : List (Sys Point × Sys Point)}

theorem Traced.step (h : Traced ch ccr d sec s ps) (hst : s.step ch callback a = some t)
    (ha : ∀ id args, a ≠ .command id args) : Traced ch ccr d sec t (ps ++ threadStep s a t) := by
  have hm := Sys.step_move hst
  have hmem : ∀ p ∈ threadStep s a t, p = (s, t) ∧ a = .thread := by
    intro p hp
    cases a with
    | thread => exact ⟨List.mem_singleton.1 hp, rfl⟩
    | _ => cases hp
  refine ⟨h.reach.steps (.single hst trivial), ?_, fun p hp => ?_, fun p hp => ?_⟩
  · rw [calls_threadStep]
    exact h.serving.step hm ha
  · rcases List.mem_append.1 hp with hp | hp
    · exact h.moves p hp
    · obtain ⟨rfl, rfl⟩ := hmem p hp
      exact hm
  · rcases List.mem_append.1 hp with hp | hp
    · exact h.owned p hp
    · obtain ⟨rfl, -⟩ := hmem p hp
      exact fun side => (reach_owned h.reach side).2

theorem traced_dispatch {s₀ : Sys Point} {args : List UInt8}
    (h : Reach (Sys.step ch callback) Always (Sys.init ch ccr) s₀)
    (hst : s₀.step ch callback (.command d.id args) = some s) :
    Traced ch ccr d (atoi args) s [] ∧ s.sem = s₀.sem := by
  have hm := Sys.step_move hst
  have hr := h.steps (.single hst trivial)
  cases hm
  exact ⟨⟨hr, serving_start d args, by simp, by simp⟩, rfl⟩

/-- No other command is dispatched. -/
def NoCommand (as : List Act) : Prop := ∀ a ∈ as, ∀ id args, a ≠ .command id args

theorem Traced.run {C : Sys Point → Act → Prop} (h : Traced ch ccr d sec s []) {as : List Act}
    (hs : Steps (Sys.step ch callback) C s as t) (has : NoCommand as) :
    Traced ch ccr d sec t (threadSteps ch callback s as) :=
  (hs.labels has).inv_observe (fun _ _ _ _ hi hc hst => hi.step hst hc.2) h

theorem Unblocked.run (h : Unblocked d sec s) (htr : Traced ch ccr d sec s []) {as : List Act}
    (hs : Steps (Sys.step ch callback) StartOk s as t) (has : NoCommand as) :
    Unblocked d sec t := by
  have hi := (hs.labels has).inv_observe
    (I := fun s ps => Unblocked d sec s ∧ Traced ch ccr d sec s ps)
    (fun s ps a t hi hc hst =>
      ⟨hi.1.step hi.2.serving hc.1 (Sys.step_move hst) hc.2, hi.2.step hst hc.2⟩) ⟨h, htr⟩
  exact hi.1

/-- A command is refused or accepted as a whole: `M_ERROR` and nothing changed by
it, or `M_OK` and all of its sides started. -/
def Whole (ch : Channels) (d : Drive) (ps : List (Sys Point × Sys Point)) (m : Message) : Prop :=
  (m = .error ∧ ∀ p ∈ ps, Leaves p.1 p.2) ∨
    (m = .ok ∧ ∀ side ∈ sides d, ∃ p ∈ ps, Starts ch side p.1 p.2)

theorem Traced.whole (h : Traced ch ccr d sec t ps) {x : Point} {m : Message}
    (hth : t.thread = .callback x) (hret : callback.req x = .ret m) : Whole ch d ps m := by
  have hs := h.serving
  rw [hth] at hs
  generalize hmade : calls ps = made at hs
  cases hs with
  | refused =>
    refine .inl ⟨by cases hret; rfl, fun p hp => leaves_of_call (h.moves p hp) ?_⟩
    exact List.filterMap_eq_nil_iff.1 hmade p hp
  | served =>
    refine .inr ⟨by cases hret; rfl, fun side hside => ?_⟩
    have htime := set_mem_driveCode sec hside
    rw [← hmade] at htime
    obtain ⟨p, hp, hcall⟩ := List.mem_filterMap.1 htime
    obtain ⟨o, ho⟩ := h.owned p hp side
    exact ⟨p, hp, ho.starts (h.moves p hp) hcall⟩
  | leftActive => cases hret
  | accepted => cases d <;> cases hret

variable (ch) in
theorem suspends {code : List Instr} {x : Point} (hi : s.isr = .idle)
    (hth : s.thread = .run code x) (hmem : .chBSemWait side ∈ code) (hbusy : ¬ s.free side)
    (hsig : ∀ side, .chBSemSignalI side ∉ code) :
    ∃ m t side, Steps (Sys.step ch callback) Always s (List.replicate m .thread) t ∧
      t.thread.waitsFor side = true := by
  induction code generalizing s with
  | nil => cases hmem
  | cons i code ih =>
    have hsig' : ∀ side, .chBSemSignalI side ∉ code := fun side h =>
      hsig side (List.mem_cons_of_mem _ h)
    by_cases hw : ∃ side', i = .chBSemWait side'
    · obtain ⟨side', rfl⟩ := hw
      by_cases hfree : s.free side'
      · -- this semaphore is taken, the one that is not free comes later
        have hne : side ≠ side' := by rintro rfl; exact hbusy hfree
        have hlt : ¬ (s.sem side').cnt - 1 < 0 := by rw [Sys.free_iff] at hfree; omega
        have hst : s.step ch callback .thread = some { s with
            sem := Function.update s.sem side' ⟨(s.sem side').cnt - 1⟩
            thread := .run code x } := by
          simp only [Sys.step, if_pos hi, Sys.threadStep, hth, BinarySemaphore.chBSemWait, hlt,
            decide_false, Bool.false_eq_true, ↓reduceIte]
        have hmem' : .chBSemWait side ∈ code :=
          (List.mem_cons.1 hmem).resolve_left (by simpa using hne)
        obtain ⟨m, t, side'', hs, ht⟩ := ih (s := { s with
            sem := Function.update s.sem side' ⟨(s.sem side').cnt - 1⟩, thread := .run code x })
          hi rfl hmem' (by simpa only [Sys.free, Function.update_of_ne hne] using hbusy) hsig'
        exact ⟨m + 1, t, side'', .cons hst trivial hs, ht⟩
      · have hlt : (s.sem side').cnt - 1 < 0 := by rw [Sys.free_iff] at hfree; omega
        refine ⟨1, { s with
            sem := Function.update s.sem side' ⟨(s.sem side').cnt - 1⟩
            thread := .suspended side' code x }, side', .single ?_ trivial,
          by simp [Thread.waitsFor]⟩
        simp only [Sys.step, if_pos hi, Sys.threadStep, hth, BinarySemaphore.chBSemWait, hlt,
          decide_true, ↓reduceIte]
    · have hst : s.step ch callback .thread =
          some (Sys.execute ch { s with thread := .run code x } i) := by
        cases i with
        | chBSemWait side' => exact absurd ⟨side', rfl⟩ hw
        | _ => simp only [Sys.step, if_pos hi, Sys.threadStep, hth]
      have hne : i ≠ .chBSemSignalI side := by
        rintro rfl
        exact hsig side List.mem_cons_self
      have hmem' : .chBSemWait side ∈ code :=
        (List.mem_cons.1 hmem).resolve_left fun he => hw ⟨side, he.symm⟩
      obtain ⟨m, t, side'', hs, ht⟩ := ih (s := Sys.execute ch { s with thread := .run code x } i)
        (by cases i <;> exact hi) (execute_thread (fun _ => rfl) i) hmem'
        (by rw [Sys.free, execute_sem _ hne]; exact hbusy) hsig'
      exact ⟨m + 1, t, side'', .cons hst trivial hs, ht⟩

variable (ch) in
/-- A command let through while one of its sides runs is going to wait. -/
theorem stalls {sec : Int} (hi : s.isr = .idle) (hth : s.thread = .callback (accepted d sec))
    (hside : side ∈ sides d) (hbusy : ¬ s.free side) :
    ∃ m t side, Steps (Sys.step ch callback) Always s (List.replicate m .thread) t ∧
      t.thread.waitsFor side = true := by
  have hst : s.step ch callback .thread =
      some { s with thread := .run (driveCode d sec) (accepted d sec) } := by
    simp only [Sys.step, if_pos hi, Sys.threadStep, hth]
    cases d <;> rfl
  obtain ⟨m, t, side', hs, ht⟩ := suspends ch
    (s := { s with thread := .run (driveCode d sec) (accepted d sec) }) hi rfl
    ((wait_mem_driveCode d sec side).2 hside) hbusy
    (signal_notMem_driveCode d sec)
  exact ⟨m + 1, t, side', .cons hst trivial hs, ht⟩

end

/-- **A command is refused or accepted as a whole and does not stall the thread**, in
every run from its dispatch on in which the busy test lets it through only when all of
its sides are free. Where the test lets it through with one of them running, the thread
is going to wait. -/
theorem command_whole (ch : Channels) (ccr : Nat → Nat) (d : Drive) (args : List UInt8)
    {s₀ s₁ : Sys Point} (h : Reach (Sys.step ch callback) Always (Sys.init ch ccr) s₀)
    (hd : s₀.step ch callback (.command d.id args) = some s₁) :
    (∀ as t, Steps (Sys.step ch callback) StartOk s₁ as t → NoCommand as →
      (∀ side, t.thread.waitsFor side = false) ∧
      (t.isr = .idle → t.thread = .idle ∨ (t.step ch callback .thread).isSome = true) ∧
      ∀ x m, t.thread = .callback x → callback.req x = .ret m →
        Whole ch d (threadSteps ch callback s₁ as) m) ∧
    (∀ as t, Steps (Sys.step ch callback) Always s₁ as t → NoCommand as → t.isr = .idle →
      ¬ StartOk t .thread →
        ∃ m u side, Steps (Sys.step ch callback) Always t (List.replicate m .thread) u ∧
          u.thread.waitsFor side = true) := by
  obtain ⟨htr, -⟩ := traced_dispatch h hd
  constructor
  · intro as t hs has
    have hu : Unblocked d (atoi args) s₁ := by
      have hth := htr.serving
      have hm := Sys.step_move hd
      cases hm
      refine .outside rfl (fun _ => rfl) ?_
      rw [show callback.start d.id args = startDrive d args from start_drive d args, startDrive]
      split <;> simp [accepted]
    have hu' := hu.run htr hs has
    have htr' := htr.run hs has
    exact ⟨hu'.notWaiting, hu'.enabled htr'.serving, fun x m => htr'.whole⟩
  · intro as t hs has hi hbusy
    have hserving := (htr.run hs has).serving
    obtain ⟨d', hd', side, hside, hfree⟩ :
        ∃ d', d' ∈ letThrough t ∧ ∃ side ∈ sides d', ¬ t.free side := by
      simpa [StartOk] using hbusy
    -- one step to the end of the test, which finds a side inactive
    have hlet : d' = d ∧ t.step ch callback .thread =
        some { t with thread := .callback (accepted d (atoi args)) } := by
      rw [letThrough] at hd'
      generalize hmade : calls (threadSteps ch callback s₁ as) = made at hserving
      simp only [Sys.step, if_pos hi, Sys.threadStep]
      split at hd'
      · next hth =>
        rw [hth] at hserving ⊢
        cases hserving with
        | leftActive =>
          split at hd'
          · cases hd'
          · next hl =>
            simp only [Option.mem_def, Option.some.injEq] at hd'
            refine ⟨hd'.symm, ?_⟩
            simp [callback, Point.req, Point.result, hl, accepted]
      · next hth =>
        rw [hth] at hserving ⊢
        cases hserving with
        | rightActive =>
          split at hd'
          · cases hd'
          · next hr =>
            simp only [Option.mem_def, Option.some.injEq] at hd'
            exact ⟨hd'.symm, by simp [callback, Point.result, hr, accepted]⟩
      · cases hd'
    obtain ⟨rfl, hst⟩ := hlet
    obtain ⟨m, u, side', hs', hu⟩ := stalls ch
      (s := { t with thread := .callback (accepted d' (atoi args)) }) hi rfl hside hfree
    exact ⟨m + 1, u, side', .cons hst trivial hs', hu⟩

/-- The state after the first command, and a second one up to its end. -/
def twoCommands (C : Sys Point → Act → Prop) [∀ s a, Decidable (C s a)]
    (first second : List UInt8 × List UInt8) (between after : List Act) :
    Option (Sys Point × Sys Point × Sys Point) :=
  (exec (Sys.step mainChannels callback) Always (Sys.init mainChannels fun _ => 0)
    (.command first.1 first.2 :: between)).bind fun s₀ =>
  (s₀.step mainChannels callback (.command second.1 second.2)).bind fun s₁ =>
  (exec (Sys.step mainChannels callback) C s₁ after).map fun t => (s₀, s₁, t)

theorem steps_of_twoCommands {C : Sys Point → Act → Prop} [∀ s a, Decidable (C s a)]
    (first second : List UInt8 × List UInt8) (between after : List Act) (P : Sys Point → Bool)
    (h : (twoCommands C first second between after).any (fun p => P p.2.2) = true) :
    ∃ s₀ s₁ t, Reach (Sys.step mainChannels callback) Always (Sys.init mainChannels fun _ => 0) s₀ ∧
      s₀.step mainChannels callback (.command second.1 second.2) = some s₁ ∧
      Steps (Sys.step mainChannels callback) C s₁ after t ∧ P t = true := by
  obtain ⟨⟨s₀, s₁, t⟩, hp, hP⟩ := (Option.any_eq_true _ _).1 h
  simp only [twoCommands, Option.bind_eq_some_iff, Option.map_eq_some_iff, Prod.mk.injEq] at hp
  obtain ⟨s₀', h₀, s₁', h₁, t', ht, rfl, rfl, rfl⟩ := hp
  exact ⟨s₀', s₁', t', ⟨_, steps_of_exec h₀⟩, h₁, steps_of_exec ht, hP⟩

/-- The right side is started while the left one runs. -/
theorem command_whole_other_side :
    ∃ s₁ t : Sys Point, ∃ as, Steps (Sys.step mainChannels callback) StartOk s₁ as t ∧
      t.thread = .callback (.done .ok) ∧
      Whole mainChannels .turnRight (threadSteps mainChannels callback s₁ as) .ok := by
  obtain ⟨s₀, s₁, t, hr, hd, hs, ht⟩ := steps_of_twoCommands (C := StartOk)
    (ascii "turnLeft", ascii "5") (Drive.turnRight.id, ascii "2") (List.replicate 10 .thread)
    (List.replicate 10 .thread) (fun t => decide (t.thread = .callback (.done .ok)))
    (by decide +kernel)
  have hth : t.thread = .callback (.done .ok) := of_decide_eq_true ht
  have hwhole :=
    ((command_whole mainChannels _ .turnRight _ hr hd).1 _ t hs (by simp [NoCommand])).2.2
  exact ⟨s₁, t, _, hs, hth, hwhole _ _ hth rfl⟩

/-- `forward` while the left side runs: the thread waits for it. -/
theorem forward_stalls :
    ∃ s₀ s₁ t : Sys Point, ∃ as,
      Reach (Sys.step mainChannels callback) Always (Sys.init mainChannels fun _ => 0) s₀ ∧
      s₀.step mainChannels callback (.command Drive.forward.id (ascii "2")) = some s₁ ∧
      Steps (Sys.step mainChannels callback) Always s₁ as t ∧ NoCommand as ∧
      t.thread.waitsFor .left = true := by
  obtain ⟨s₀, s₁, t, hr, hd, hs, ht⟩ := steps_of_twoCommands (C := Always)
    (ascii "turnLeft", ascii "5") (Drive.forward.id, ascii "2") (List.replicate 10 .thread)
    (List.replicate 4 .thread) (fun t => t.thread.waitsFor .left) (by decide +kernel)
  exact ⟨s₀, s₁, t, _, hr, hd, hs, by simp [NoCommand], ht⟩

end RobotPws.Motor
