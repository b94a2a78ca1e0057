import RobotPws.Motor.Ownership

/-!
# Motor safety

What having an owner means for a side: its two outputs are never both on, a free
semaphore means outputs off and no timer, and the timer is armed only when it is
not linked (`motor_safe`).
-/

namespace RobotPws.Motor

open RobotPws.Lib RobotPws.Kernel RobotPws.Wifly RobotPws.Main

variable {σ : Type} {ch : Channels} {side : Side} {s : Sys σ} {o : Owner}

structure SafeSide (ch : Channels) (side : Side) (s : Sys σ) : Prop where
  /-- The two outputs are not both on. -/
  outputs : ¬ (s.ccr (ch.value side.pin1) ≠ 0 ∧ s.ccr (ch.value side.pin2) ≠ 0)
  /-- A free semaphore means outputs off and no timer. -/
  free : 0 < (s.sem side).cnt → s.ccr (ch.value side.pin1) = 0 ∧
    s.ccr (ch.value side.pin2) = 0 ∧ .motor side ∉ DeltaList.keys s.vtlist
  /-- `chVTSet` comes only when the timer is not linked. -/
  arming : ∀ time code x, s.thread = .run (.chVTSet side time :: code) x →
    .motor side ∉ DeltaList.keys s.vtlist

theorem Owned.linked_iff (h : Owned ch side s o) :
    .motor side ∈ DeltaList.keys s.vtlist ↔ o.isTimer = true := by
  rw [← List.count_pos_iff, h.linked]
  cases o.isTimer <;> simp

theorem Owned.free (h : Owned ch side s o) (hf : 0 < (s.sem side).cnt) : o = .semaphore := by
  by_contra ho
  have hcnt := h.cnt
  rw [if_neg ho] at hcnt
  cases hw : s.thread.waitsFor side <;> simp [hw] at hcnt <;> omega

theorem Owned.arming (h : Owned ch side s o) {time : UInt32} {code : List Instr} {x : σ}
    (hth : s.thread = .run (.chVTSet side time :: code) x) :
    ∃ d, o = .role .thread d ∧ d.1 ≠ d.2 := by
  have hcode := h.safe .thread
  rw [Sys.code, hth] at hcode
  obtain ⟨v, hv, -⟩ := hcode.cons
  rw [Instr.view, if_pos rfl] at hv
  obtain ⟨d, hd, hv'⟩ := Option.bind_eq_some_iff.1 hv
  refine ⟨d, Owner.view_eq_some.1 hd, fun he => ?_⟩
  rw [if_pos he] at hv'
  cases hv'

theorem Owned.safeSide (h : Owned ch side s o) : SafeSide ch side s := by
  refine ⟨fun ⟨h1, h2⟩ => ?_, fun hf => ?_, fun time code x hth => ?_⟩
  · have ho1 := h.output1
    have ho2 := h.output2
    rcases h.oneOff with hd | hd
    · rw [hd] at ho1; exact h1 ho1
    · rw [hd] at ho2; exact h2 ho2
  · obtain rfl := h.free hf
    exact ⟨h.output1, h.output2, by rw [h.linked_iff]; simp [Owner.isTimer]⟩
  · obtain ⟨d, rfl, -⟩ := h.arming hth
    rw [h.linked_iff]
    simp [Owner.isTimer]

/-- **Motor safety**, for every sequence of commands and ticks. -/
theorem motor_safe (ch : Channels) (ccr : Nat → Nat) (s : Sys Point)
    (h : Reach (Sys.step ch callback) Always (Sys.init ch ccr) s) (side : Side) :
    SafeSide ch side s := by
  obtain ⟨-, o, ho⟩ := reach_owned h side
  exact ho.safeSide

/-- The left motor is running and a second command waits for it. -/
theorem motor_safe_running :
    ∃ s, Reach (Sys.step mainChannels callback) Always (Sys.init mainChannels fun _ => 0) s ∧
      s.ccr 0 = 12 ∧ s.thread.waitsFor .left = true ∧ SafeSide mainChannels .left s := by
  obtain ⟨s, hr, hp⟩ := reach_of_exec (Sys.step mainChannels callback) Always
    (Sys.init mainChannels fun _ => 0)
    (script [(1, .command (ascii "turnLeft") (ascii "1")), (10, .thread), (1, .tick), (1, .isr),
      (1, .command (ascii "turnLeft") (ascii "2")), (4, .thread)])
    (fun s => decide (s.ccr 0 = 12 ∧ s.thread.waitsFor .left = true)) (by decide +kernel)
  simp only [decide_eq_true_eq] at hp
  exact ⟨s, hr, hp.1, hp.2, motor_safe _ _ s hr .left⟩

end RobotPws.Motor
