import RobotPws.Lib.DeltaList

/-!
# Virtual timers

The list of `chvt.c`, a delta list of 32-bit times. The header of the list holds
the largest time, so that no loop over the list goes past it: it is not less
than any time and not zero.

The sums made here wrap around. As long as every timer is armed with a time of
32 bits and none with zero, they never do (`chVTResetI_eq`, `decrement_eq`).
-/

namespace RobotPws.Kernel

open RobotPws.Lib

/-- The linked timers with their `vt_time`, from the header on. -/
abbrev VTList (τ : Type) : Type := List (τ × Nat)

namespace VTList

variable {τ : Type} {vtp : τ} {l : VTList τ}

/-- Pass the timers that expire earlier, link `vtp` there. -/
def chVTSetI (vtp : τ) (time : UInt32) (l : VTList τ) : VTList τ :=
  DeltaList.insert vtp time.toNat l

/-- `--vtlist.vt_next->vt_time`, if a timer is linked. -/
def decrement : VTList τ → VTList τ
  | [] => []
  | (p, time) :: l => (p, (time + (2 ^ 32 - 1)) % 2 ^ 32) :: l

/-- `vtp->vt_next->vt_time += time`, if the next one is a timer. -/
def addTime (time : Nat) : VTList τ → VTList τ
  | [] => []
  | (q, t) :: l => (q, (t + time) % 2 ^ 32) :: l

/-- The loop of `chVTDoTickI`: the first timer, unlinked, if it has expired. -/
def expired : VTList τ → Option (τ × VTList τ)
  | (p, 0) :: l => some (p, l)
  | _ => none

/-- Every sum of times fits 32 bits. -/
def Fits (l : VTList τ) : Prop := DeltaList.total l < 2 ^ 32

theorem Fits.set (h : l.Fits) (time : UInt32) : (chVTSetI vtp time l).Fits := by
  rw [Fits, chVTSetI, DeltaList.total_insert]
  exact Nat.max_lt.2 ⟨time.toNat_lt, h⟩

theorem keys_addTime (time : Nat) (l : VTList τ) :
    DeltaList.keys (addTime time l) = DeltaList.keys l := by
  cases l with
  | nil => rfl
  | cons p l => rw [addTime, DeltaList.keys_cons]; rfl

theorem keys_decrement (l : VTList τ) : DeltaList.keys l.decrement = DeltaList.keys l := by
  cases l with
  | nil => rfl
  | cons p l => rw [decrement, DeltaList.keys_cons]; rfl

theorem decrement_eq (h : DeltaList.Early l) (hf : l.Fits) : l.decrement = DeltaList.tick l := by
  cases l with
  | nil => rfl
  | cons p l =>
    obtain ⟨p, time⟩ := p
    have ht : 0 < time := h (p, time) rfl
    rw [Fits, DeltaList.total_cons] at hf
    rw [decrement, DeltaList.tick, show (time + (2 ^ 32 - 1)) % 2 ^ 32 = time - 1 by omega]

theorem expired_eq_some {l' : VTList τ} : l.expired = some (vtp, l') ↔ l = (vtp, 0) :: l' := by
  unfold expired
  split
  · simp
  · next hne =>
    constructor
    · intro h; cases h
    · intro h; exact (hne _ _ h).elim

theorem early_of_expired (h : l.expired = none) : DeltaList.Early l := by
  cases l with
  | nil => exact fun p hp => nomatch hp
  | cons p l =>
    obtain ⟨p, time⟩ := p
    cases time with
    | zero => cases h
    | succ time => intro q hq; cases hq; exact Nat.succ_pos _

section
variable [DecidableEq τ]

/-- Unlink `vtp`; the next timer, if there is one, gets its time. -/
def chVTResetI (vtp : τ) : VTList τ → VTList τ
  | [] => []
  | (p, time) :: l => if p = vtp then addTime time l else (p, time) :: chVTResetI vtp l

theorem keys_chVTResetI (vtp : τ) (l : VTList τ) :
    DeltaList.keys (chVTResetI vtp l) = (DeltaList.keys l).erase vtp := by
  induction l with
  | nil => rfl
  | cons p l ih =>
    obtain ⟨p, time⟩ := p
    rw [chVTResetI, DeltaList.keys_cons]
    by_cases h : p = vtp
    · rw [if_pos h, h, List.erase_cons_head, keys_addTime]
    · rw [if_neg h, DeltaList.keys_cons, ih, List.erase_cons_tail (by simpa using h)]

theorem chVTResetI_eq (h : l.Fits) : chVTResetI vtp l = DeltaList.remove vtp l := by
  induction l with
  | nil => rfl
  | cons p l ih =>
    obtain ⟨p, time⟩ := p
    rw [Fits, DeltaList.total_cons] at h
    rw [chVTResetI, DeltaList.remove, ih (by rw [Fits]; omega)]
    cases l with
    | nil => rfl
    | cons q l =>
      obtain ⟨q, t⟩ := q
      rw [DeltaList.total_cons] at h
      simp only [addTime, DeltaList.addHead, show (t + time) % 2 ^ 32 = t + time by omega]

end

end VTList

end RobotPws.Kernel
