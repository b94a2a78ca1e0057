import RobotPws.Motor.Commands

/-!
# Durations

The seconds of an accepted command on their way to `chVTSet`: an `int` product in
`callback`, the 32-bit `long` computation of `MS2ST` and the conversion to a tick
count. They arrive as `1000` ticks a second exactly from 1 to 2147.
-/

namespace RobotPws.Motor

open RobotPws.Lib RobotPws.Kernel RobotPws.Wifly RobotPws.Main

/-- The value is one of a 32-bit `int` or `long`. -/
def InInt (v : Int) : Prop := -2 ^ 31 ≤ v ∧ v < 2 ^ 31

/-- The sides armed by these calls, with their ticks. -/
def armed (is : List Instr) : List (Side × UInt32) :=
  is.filterMap fun
    | .chVTSet side time => some (side, time)
    | _ => none

/-- The seconds of `d` are positive, no step of their arithmetic overflows and each
side is armed with as many ticks. -/
structure Kept (d : Drive) (sec : Int) (is : List Instr) : Prop where
  pos : 0 < sec
  /-- `sec * 1000` -/
  milli : InInt (sec * 1000)
  /-- `(msec) - 1L` -/
  minusOne : InInt (sec * 1000 - 1)
  /-- `((msec) - 1L) * CH_FREQUENCY` -/
  product : InInt ((sec * 1000 - 1) * 1000)
  ticks : ∃ time : UInt32, time ≠ 0 ∧ (time.toNat : Int) = sec * 1000 ∧
    armed is = (sides d).map fun side => (side, time)

theorem armed_driveCode (d : Drive) (sec : Int) : armed (driveCode d sec) =
    (sides d).map fun side => (side, ms2st (wrap32 (sec * 1000))) := by
  cases d <;> rfl

theorem ms2st_of_le {sec : Int} (h1 : 1 ≤ sec) (h2 : sec ≤ 2147) :
    ((ms2st (wrap32 (sec * 1000))).toNat : Int) = sec * 1000 := by
  rw [wrap32_of_lt (v := sec * 1000) (by omega) (by omega)]
  exact ms2st_toNat (by omega) (by omega)

theorem kept_iff (d : Drive) (sec : Int) : Kept d sec (driveCode d sec) ↔ 1 ≤ sec ∧ sec ≤ 2147 := by
  constructor
  · intro h
    have h1 := h.pos
    have h2 := h.product.2
    omega
  · rintro ⟨h1, h2⟩
    have hticks := ms2st_of_le h1 h2
    refine ⟨by omega, ⟨by omega, by omega⟩, ⟨by omega, by omega⟩, ⟨by omega, by omega⟩,
      _, fun h0 => ?_, hticks, armed_driveCode d sec⟩
    rw [h0] at hticks
    have h0' : ((0 : UInt32).toNat : Int) = 0 := rfl
    omega

/-- **The durations that survive**: those of the accepted commands from 1 to 2147
seconds. -/
theorem durations_kept_iff (ch : Channels) (ccr : Nat → Nat) (d : Drive) (args : List UInt8)
    {s₀ s₁ t : Sys Point} {as : List Act} {x : Point}
    (h : Reach (Sys.step ch callback) Always (Sys.init ch ccr) s₀)
    (hd : s₀.step ch callback (.command d.id args) = some s₁)
    (hs : Steps (Sys.step ch callback) Always s₁ as t) (has : NoCommand as)
    (hth : t.thread = .callback x) (hret : callback.req x = .ret .ok) :
    Kept d (atoi args) (calls (threadSteps ch callback s₁ as)) ↔
      1 ≤ atoi args ∧ atoi args ≤ 2147 := by
  have hserving := ((traced_dispatch h hd).1.run hs has).serving
  rw [hth] at hserving
  generalize calls (threadSteps ch callback s₁ as) = made at hserving
  cases hserving with
  | served => exact kept_iff d (atoi args)
  | refused | leftActive => cases hret
  | accepted => cases d <;> cases hret

theorem first_accepted (args : List UInt8) (P : Sys Point → Sys Point → Bool)
    (h : (((Sys.init mainChannels fun _ => 0).step mainChannels callback
      (.command Drive.turnLeft.id args)).bind fun s₁ =>
        (exec (Sys.step mainChannels callback) Always s₁ (List.replicate 9 .thread)).map fun t =>
          decide (t.thread = .callback (.done .ok)) && P s₁ t) = some true) :
    ∃ s₁ t : Sys Point, (Sys.init mainChannels fun _ => 0).step mainChannels callback
        (.command Drive.turnLeft.id args) = some s₁ ∧
      Steps (Sys.step mainChannels callback) Always s₁ (List.replicate 9 .thread) t ∧
      t.thread = .callback (.done .ok) ∧ P s₁ t = true := by
  obtain ⟨s₁, h₁, h⟩ := Option.bind_eq_some_iff.1 h
  obtain ⟨t, ht, hp⟩ := Option.map_eq_some_iff.1 h
  rw [Bool.and_eq_true, decide_eq_true_eq] at hp
  exact ⟨s₁, t, h₁, steps_of_exec ht, hp.1, hp.2⟩

/-- Half an hour. -/
theorem durations_kept_half_hour : ∃ s₁ t : Sys Point,
    Steps (Sys.step mainChannels callback) Always s₁ (List.replicate 9 .thread) t ∧
    t.thread = .callback (.done .ok) ∧ Kept .turnLeft 1800
      (calls (threadSteps mainChannels callback s₁ (List.replicate 9 .thread))) := by
  obtain ⟨s₁, t, hd, hs, hth, -⟩ := first_accepted (ascii "1800") (fun _ _ => true)
    (by decide +kernel)
  have hsec : atoi (ascii "1800") = 1800 := by decide
  have hiff := durations_kept_iff mainChannels _ .turnLeft _ ⟨[], .refl _⟩ hd hs
    (by simp [NoCommand]) hth rfl
  rw [hsec] at hiff
  exact ⟨s₁, t, hs, hth, hiff.2 (by decide)⟩

/-- `turnLeft 536870912` is accepted and arms the timer with no ticks. -/
theorem duration_zero_ticks : ∃ s₁ t : Sys Point,
    (Sys.init mainChannels fun _ => 0).step mainChannels callback
      (.command Drive.turnLeft.id (ascii "536870912")) = some s₁ ∧
    Steps (Sys.step mainChannels callback) Always s₁ (List.replicate 9 .thread) t ∧
    t.thread = .callback (.done .ok) ∧
    armed (calls (threadSteps mainChannels callback s₁ (List.replicate 9 .thread))) =
      [(.left, 0)] := by
  obtain ⟨s₁, t, hd, hs, hth, hp⟩ := first_accepted (ascii "536870912")
    (fun s₁ _ => decide
      (armed (calls (threadSteps mainChannels callback s₁ (List.replicate 9 .thread))) =
        [(.left, 0)]))
    (by decide +kernel)
  exact ⟨s₁, t, hd, hs, hth, of_decide_eq_true hp⟩

end RobotPws.Motor
