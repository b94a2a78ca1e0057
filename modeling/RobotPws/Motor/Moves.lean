import RobotPws.Motor.Model

/-!
# The moves of the motor machine

`Move ch cb s a t` lists what a step can do, one constructor for each branch
with the guard it took; `step_move` reads a step as one of them. The calls of
`serv_motor.c` are left to `Sys.execute`.
-/

namespace RobotPws.Motor

open RobotPws.Lib RobotPws.Kernel RobotPws.Wifly RobotPws.Main

variable {σ : Type} {ch : Channels} {cb : ProtocolCallback Op σ}

/-- Every call but the one that can suspend its caller. -/
def Instr.isWait : Instr → Bool
  | chBSemWait _ => true
  | _ => false

namespace Sys

inductive Move (ch : Channels) (cb : ProtocolCallback Op σ) (s : Sys σ) : Act → Sys σ → Prop where
  | command (id args : List UInt8) : s.isr = .idle → s.thread = .idle →
      Move ch cb s (.command id args) { s with thread := .callback (cb.start id args) }
  | ret (r : Return) (x x' : σ) : s.isr = .idle → s.thread = .callback x →
      resume cb x r = some x' → Move ch cb s (.ret r) { s with thread := .callback x' }
  | finish (x : σ) (m : Message) : s.isr = .idle → s.thread = .callback x → cb.req x = .ret m →
      Move ch cb s .thread { s with thread := .idle }
  | leftActive (x : σ) : s.isr = .idle → s.thread = .callback x →
      cb.req x = .call .motorActive → (s.sem .left).chBSemGetStateI = true →
      Move ch cb s .thread { s with thread := .rightActive x }
  | leftInactive (x : σ) : s.isr = .idle → s.thread = .callback x →
      cb.req x = .call .motorActive → (s.sem .left).chBSemGetStateI = false →
      Move ch cb s .thread { s with thread := .callback (cb.result x 0) }
  | rightActive (x : σ) : s.isr = .idle → s.thread = .rightActive x →
      Move ch cb s .thread { s with
        thread := .callback (cb.result x (if (s.sem .right).chBSemGetStateI then 1 else 0)) }
  | enter (x : σ) (op : Op) (code : List Instr) : s.isr = .idle → s.thread = .callback x →
      cb.req x = .call op → motorCode op = some code →
      Move ch cb s .thread { s with thread := .run code x }
  | leave (x : σ) : s.isr = .idle → s.thread = .run [] x →
      Move ch cb s .thread { s with thread := .callback (cb.result x 0) }
  | take (side : Side) (code : List Instr) (x : σ) : s.isr = .idle →
      s.thread = .run (.chBSemWait side :: code) x → 0 ≤ (s.sem side).cnt - 1 →
      Move ch cb s .thread { s with
        sem := Function.update s.sem side ⟨(s.sem side).cnt - 1⟩, thread := .run code x }
  | suspend (side : Side) (code : List Instr) (x : σ) : s.isr = .idle →
      s.thread = .run (.chBSemWait side :: code) x → (s.sem side).cnt - 1 < 0 →
      Move ch cb s .thread { s with
        sem := Function.update s.sem side ⟨(s.sem side).cnt - 1⟩
        thread := .suspended side code x }
  | threadCall (i : Instr) (code : List Instr) (x : σ) : s.isr = .idle →
      s.thread = .run (i :: code) x → i.isWait = false →
      Move ch cb s .thread (execute ch { s with thread := .run code x } i)
  | tick : s.isr = .idle → s.locked = false →
      Move ch cb s .tick { s with vtlist := s.vtlist.decrement, locked := true, isr := .sweep }
  | sweepEnd : s.isr = .sweep → s.vtlist.expired = none →
      Move ch cb s .isr { s with locked := false, isr := .idle }
  | expire (side : Side) (l : VTList Vt) : s.isr = .sweep → s.vtlist = (.motor side, 0) :: l →
      Move ch cb s .isr { s with vtlist := l, locked := false, isr := .callback (vtfunc side) }
  | expireOther (k : Nat) (l : VTList Vt) : s.isr = .sweep → s.vtlist = (.other k, 0) :: l →
      Move ch cb s .isr { s with vtlist := l, locked := false, isr := .callback [] }
  | callbackEnd : s.isr = .callback [] →
      Move ch cb s .isr { s with locked := true, isr := .sweep }
  | isrCall (i : Instr) (code : List Instr) : s.isr = .callback (i :: code) → i.isWait = false →
      Move ch cb s .isr (execute ch { s with isr := .callback code } i)
  | setOther (k : Nat) (time : UInt32) : s.locked = false →
      .other k ∉ DeltaList.keys s.vtlist →
      Move ch cb s (.chVTSetI k time) { s with vtlist := s.vtlist.chVTSetI (.other k) time }
  | resetOther (k : Nat) : s.locked = false → .other k ∈ DeltaList.keys s.vtlist →
      Move ch cb s (.chVTResetI k) { s with vtlist := s.vtlist.chVTResetI (.other k) }
  | setSpeed (v : Int) : s.locked = false → 25 ≤ v → v ≤ 100 →
      Move ch cb s (.motorSetSpeed v) { s with motorSpeed := (100 * v).toNat }
  | sameSpeed (v : Int) : s.locked = false → Move ch cb s (.motorSetSpeed v) s

theorem threadStep_move {s t : Sys σ} (hi : s.isr = .idle) (h : s.threadStep ch cb = some t) :
    Move ch cb s .thread t := by
  unfold threadStep at h
  split at h
  case h_1 => cases h
  case h_2 => cases h
  case h_3 x hth =>
    split at h
    · next m hr => cases h; exact .finish x m hi hth hr
    · next hr =>
      split at h
      · next hl => cases h; exact .leftActive x hi hth hr hl
      · next hl => cases h; exact .leftInactive x hi hth hr (by simpa using hl)
    · next op _ hr =>
      obtain ⟨code, hc, rfl⟩ := Option.map_eq_some_iff.1 h
      exact .enter x op code hi hth hr hc
    · cases h
  case h_4 x hth => cases h; exact .rightActive x hi hth
  case h_5 x hth => cases h; exact .leave x hi hth
  case h_6 side code x hth =>
    simp only [BinarySemaphore.chBSemWait] at h
    by_cases hs : (s.sem side).cnt - 1 < 0
    · simp only [hs, decide_true, ↓reduceIte] at h
      cases h; exact .suspend side code x hi hth hs
    · simp only [hs, decide_false, Bool.false_eq_true, ↓reduceIte] at h
      cases h; exact .take side code x hi hth (by omega)
  case h_7 i code x hne hth =>
    cases h
    refine .threadCall i code x hi hth ?_
    cases i with
    | chBSemWait side => exact absurd rfl (hne side)
    | _ => rfl

theorem isrStep_move {s t : Sys σ} (h : s.isrStep ch = some t) : Move ch cb s .isr t := by
  unfold isrStep at h
  split at h
  case h_1 => cases h
  case h_2 hi =>
    split at h
    · next he => cases h; exact .sweepEnd hi he
    · next side l he => cases h; exact .expire side l hi (VTList.expired_eq_some.1 he)
    · next k l he => cases h; exact .expireOther k l hi (VTList.expired_eq_some.1 he)
  case h_3 hi => cases h; exact .callbackEnd hi
  case h_4 => cases h
  case h_5 i code hne hi =>
    cases h
    refine .isrCall i code hi ?_
    cases i with
    | chBSemWait side => exact absurd rfl (hne side)
    | _ => rfl

theorem step_move {s t : Sys σ} {a : Act} (h : s.step ch cb a = some t) : Move ch cb s a t := by
  cases a with
  | command id args =>
    simp only [step] at h
    split at h
    · next hi =>
      split at h
      · next hth => cases h; exact .command id args hi hth
      · cases h
    · cases h
  | thread =>
    simp only [step] at h
    split at h
    · next hi => exact threadStep_move hi h
    · cases h
  | ret r =>
    simp only [step] at h
    split at h
    · next hi =>
      split at h
      · next x hth =>
        obtain ⟨x', hx, rfl⟩ := Option.map_eq_some_iff.1 h
        exact .ret r x x' hi hth hx
      · cases h
    · cases h
  | tick =>
    simp only [step] at h
    split at h
    · next hg => cases h; exact .tick hg.1 hg.2
    · cases h
  | isr => exact isrStep_move h
  | chVTSetI k time =>
    simp only [step] at h
    split at h
    · next hg => cases h; exact .setOther k time hg.1 hg.2
    · cases h
  | chVTResetI k =>
    simp only [step] at h
    split at h
    · next hg => cases h; exact .resetOther k hg.1 hg.2
    · cases h
  | motorSetSpeed v =>
    simp only [step] at h
    split at h
    · next hl =>
      split at h
      · next hv => cases h; exact .setSpeed v hl hv.1 hv.2
      · cases h; exact .sameSpeed v hl
    · cases h

end Sys

end RobotPws.Motor
