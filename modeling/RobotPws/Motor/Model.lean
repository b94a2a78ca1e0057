import Mathlib.Logic.Function.Basic
import RobotPws.Kernel.VirtualTimers
import RobotPws.Lib.Runs
import RobotPws.Main

/-!
# The motors

`serv_motor.c` among commands, system ticks and the other users of the timer
list, as one machine. A function of `serv_motor.c` is the list of the calls it
makes (`Instr`); the thread that runs the callback of `main.c` and the tick
interrupt work such lists off one call at a time.

A tick interrupts the thread anywhere outside a lock zone, and the thread goes
on when the handler has returned. The other threads and handlers set and reset
timers of their own whenever the kernel is not locked.

The two semaphores are those of `chbsem.h` over `chsem.c`, for one thread that waits: an
operation says whether its caller is suspended or the waiting thread is made ready.
-/

namespace RobotPws.Kernel

structure BinarySemaphore where
  cnt : Int
  deriving DecidableEq, Repr

namespace BinarySemaphore

def chBSemInit (taken : Bool) : BinarySemaphore := ⟨if taken then 0 else 1⟩

/-- `chBSemWait`; the caller is suspended if the result is `true`. -/
def chBSemWait (s : BinarySemaphore) : BinarySemaphore × Bool :=
  (⟨s.cnt - 1⟩, decide (s.cnt - 1 < 0))

/-- `chBSemSignalI`; a waiting thread is made ready if the result is `true`. -/
def chBSemSignalI (s : BinarySemaphore) : BinarySemaphore × Bool :=
  if s.cnt < 1 then (⟨s.cnt + 1⟩, decide (s.cnt + 1 ≤ 0)) else (s, false)

/-- `chBSemGetStateI`: the semaphore is taken. -/
def chBSemGetStateI (s : BinarySemaphore) : Bool := !decide (s.cnt > 0)

end BinarySemaphore

end RobotPws.Kernel

namespace RobotPws.Motor

open RobotPws.Lib RobotPws.Kernel RobotPws.Wifly RobotPws.Main

inductive Side where
  | left
  | right
  deriving DecidableEq, Repr

inductive Direction where
  | forward
  | backward
  deriving DecidableEq, Repr

/-- The variables that hold the PWM channels. -/
inductive Pin where
  | lp1
  | lp2
  | rp1
  | rp2
  deriving DecidableEq, Repr

def Side.pin1 : Side → Pin
  | left => .lp1
  | right => .rp1

def Side.pin2 : Side → Pin
  | left => .lp2
  | right => .rp2

/-- The channels given to `motorInit`, four different ones. -/
structure Channels where
  value : Pin → Nat
  distinct : Function.Injective value

/-- The channels of `main.c`. -/
def mainChannels : Channels where
  value
    | .lp1 => 1
    | .lp2 => 0
    | .rp1 => 3
    | .rp2 => 2
  distinct := by
    intro p q h
    cases p <;> cases q <;> first | rfl | cases h

/-- A virtual timer: `vtl`, `vtr` or one of the rest of the firmware. -/
inductive Vt where
  | motor (side : Side)
  | other (k : Nat)
  deriving DecidableEq, Repr

/-- The percentages that are programmed: 0 or `motor_speed`. -/
inductive Duty where
  | off
  | motorSpeed
  deriving DecidableEq, Repr

/-- The calls the functions of `serv_motor.c` make. -/
inductive Instr where
  | chSysLock
  | chSysUnlock
  | chBSemWait (side : Side)
  | chBSemSignalI (side : Side)
  | pwmEnableChannelI (pin : Pin) (duty : Duty)
  /-- `chVTSet` of the side's timer with the side's `off` function -/
  | chVTSet (side : Side) (time : UInt32)
  deriving DecidableEq, Repr

open Instr

/-- `PWM_PERCENTAGE_TO_WIDTH` with the period of `motor_pwmcfg`. -/
def pwmPercentageToWidth (percentage : Nat) : Nat := 20 * percentage % 2 ^ 32 / 10000 % 2 ^ 16

/-- `MS2ST`, a computation in a signed 32-bit `long` that is converted at its end. From 2147485
milliseconds on, and below -2147482, the product overflows, which is undefined in C; here it wraps,
the compiled code need not. -/
def ms2st (msec : Int) : UInt32 :=
  .ofNat ((wrap32 ((wrap32 (wrap32 (msec - 1) * 1000)).tdiv 1000 + 1) % 2 ^ 32).toNat)

theorem ms2st_toNat {msec : Int} (h1 : 1 ≤ msec) (h2 : msec ≤ 2147484) :
    ((ms2st msec).toNat : Int) = msec := by
  have hdiv : ((msec - 1) * 1000).tdiv 1000 = msec - 1 := Int.mul_tdiv_cancel _ (by decide)
  rw [ms2st, wrap32_of_lt (v := msec - 1) (by omega) (by omega),
    wrap32_of_lt (v := (msec - 1) * 1000) (by omega) (by omega), hdiv,
    wrap32_of_lt (by omega) (by omega), UInt32.toNat_ofNat']
  omega

/-! ## The functions -/

def motor_on (side : Side) : Direction → List Instr
  | .forward => [chBSemWait side, chSysLock, pwmEnableChannelI side.pin1 .off,
      pwmEnableChannelI side.pin2 .motorSpeed, chSysUnlock]
  | .backward => [chBSemWait side, chSysLock, pwmEnableChannelI side.pin1 .motorSpeed,
      pwmEnableChannelI side.pin2 .off, chSysUnlock]

def motor_left_on : Direction → List Instr := motor_on .left
def motor_right_on : Direction → List Instr := motor_on .right

def motor_off (side : Side) : List Instr :=
  [chSysLock, pwmEnableChannelI side.pin1 .off, pwmEnableChannelI side.pin2 .off,
    chBSemSignalI side, chSysUnlock]

def motor_left_off : List Instr := motor_off .left
def motor_right_off : List Instr := motor_off .right

/-- The function a side's timer is armed with. -/
def vtfunc : Side → List Instr
  | .left => motor_left_off
  | .right => motor_right_off

def motorLeftForwardS (milli : Int) : List Instr :=
  motor_left_on .forward ++ [chVTSet .left (ms2st milli)]
def motorLeftBackwardS (milli : Int) : List Instr :=
  motor_left_on .backward ++ [chVTSet .left (ms2st milli)]
def motorRightForwardS (milli : Int) : List Instr :=
  motor_right_on .forward ++ [chVTSet .right (ms2st milli)]
def motorRightBackwardS (milli : Int) : List Instr :=
  motor_right_on .backward ++ [chVTSet .right (ms2st milli)]
def motorForwardS (milli : Int) : List Instr := motorLeftForwardS milli ++ motorRightForwardS milli
def motorBackwardS (milli : Int) : List Instr :=
  motorLeftBackwardS milli ++ motorRightBackwardS milli

/-- The function of this file that an operation of the callback is. -/
def motorCode : Op → Option (List Instr)
  | .motorForwardS milli => some (motorForwardS milli)
  | .motorBackwardS milli => some (motorBackwardS milli)
  | .motorLeftForwardS milli => some (motorLeftForwardS milli)
  | .motorRightForwardS milli => some (motorRightForwardS milli)
  | _ => none

/-! ## The machine -/

/-- The thread that runs the callback. -/
inductive Thread (σ : Type) where
  /-- outside the callback -/
  | idle
  /-- in the callback -/
  | callback (x : σ)
  /-- in `motorActive`, at `motorRightActive` -/
  | rightActive (x : σ)
  /-- in a function of this file, these calls still to be made -/
  | run (code : List Instr) (x : σ)
  /-- suspended in `chBSemWait` -/
  | suspended (side : Side) (code : List Instr) (x : σ)
  deriving DecidableEq, Repr

/-- The handler of the system tick. -/
inductive Isr where
  /-- not running -/
  | idle
  /-- at the loop of `chVTDoTickI` -/
  | sweep
  /-- in the function of a timer, these calls still to be made -/
  | callback (code : List Instr)
  deriving DecidableEq, Repr

structure Sys (σ : Type) where
  /-- The widths of the PWM channels. -/
  ccr : Nat → Nat
  sem : Side → BinarySemaphore
  vtlist : VTList Vt
  motorSpeed : Nat
  /-- The kernel is locked. -/
  locked : Bool
  thread : Thread σ
  isr : Isr
  /-- How often each semaphore has been signalled; nothing reads it. -/
  signals : Side → Nat

/-- A call of the callback outside this file returns. -/
inductive Return where
  /-- `wiflySend` -/
  | sent (st : State)
  /-- `wiflyRead` -/
  | read (st : State) (line : List UInt8)
  /-- another function -/
  | result (v : Int)
  deriving DecidableEq, Repr

inductive Act where
  /-- `wifly_loop` calls the callback -/
  | command (id args : List UInt8)
  /-- the thread -/
  | thread
  /-- a call outside this file returns -/
  | ret (r : Return)
  /-- the system tick -/
  | tick
  /-- its handler goes on -/
  | isr
  /-- `chVTSetI` of another timer -/
  | chVTSetI (k : Nat) (time : UInt32)
  /-- `chVTResetI` of another timer -/
  | chVTResetI (k : Nat)
  /-- `motorSetSpeed` on another thread -/
  | motorSetSpeed (s : Int)

/-- The waiting thread is made ready. -/
def Thread.ready {σ : Type} (side : Side) : Thread σ → Thread σ
  | suspended side' code x => if side' = side then run code x else suspended side' code x
  | t => t

namespace Sys

variable {σ : Type} (ch : Channels) (cb : ProtocolCallback Op σ)

/-- After `motorInit`; the channels hold whatever they held and the four of the
motors zero. -/
def init (ccr : Nat → Nat) : Sys σ where
  ccr c := if c ∈ [Pin.lp1, .lp2, .rp1, .rp2].map ch.value then pwmPercentageToWidth 0 else ccr c
  sem _ := .chBSemInit false
  vtlist := []
  motorSpeed := 6250
  locked := false
  thread := .idle
  isr := .idle
  signals _ := 0

def width (s : Sys σ) : Duty → Nat
  | .off => pwmPercentageToWidth 0
  | .motorSpeed => pwmPercentageToWidth s.motorSpeed

/-- A call, `chBSemWait` apart. -/
def execute (s : Sys σ) : Instr → Sys σ
  | .chSysLock => { s with locked := true }
  | .chSysUnlock => { s with locked := false }
  | .chBSemWait _ => s
  | .chBSemSignalI side =>
    let (sem, ready) := (s.sem side).chBSemSignalI
    { s with
      sem := Function.update s.sem side sem
      signals := Function.update s.signals side (s.signals side + 1)
      thread := if ready then s.thread.ready side else s.thread }
  | .pwmEnableChannelI pin duty =>
    { s with ccr := Function.update s.ccr (ch.value pin) (s.width duty) }
  | .chVTSet side time => { s with vtlist := s.vtlist.chVTSetI (.motor side) time }

/-- A step of the thread; `none` where it waits. -/
def threadStep (s : Sys σ) : Option (Sys σ) :=
  match s.thread with
  | .idle | .suspended .. => none
  | .callback x =>
    match cb.req x with
    | .ret _ => some { s with thread := .idle }
    | .call .motorActive =>
      if (s.sem .left).chBSemGetStateI then some { s with thread := .rightActive x }
      else some { s with thread := .callback (cb.result x 0) }
    | .call op => (motorCode op).map fun code => { s with thread := .run code x }
    | _ => none
  | .rightActive x =>
    let active := (s.sem .right).chBSemGetStateI
    some { s with thread := .callback (cb.result x (if active then 1 else 0)) }
  | .run [] x => some { s with thread := .callback (cb.result x 0) }
  | .run (.chBSemWait side :: code) x =>
    let (sem, suspend) := (s.sem side).chBSemWait
    some { s with
      sem := Function.update s.sem side sem
      thread := if suspend then .suspended side code x else .run code x }
  | .run (i :: code) x => some (execute ch { s with thread := .run code x } i)

/-- A step of the handler of the tick. -/
def isrStep (s : Sys σ) : Option (Sys σ) :=
  match s.isr with
  | .idle => none
  | .sweep =>
    match s.vtlist.expired with
    | none => some { s with locked := false, isr := .idle }
    | some (.motor side, l) =>
      some { s with vtlist := l, locked := false, isr := .callback (vtfunc side) }
    | some (.other _, l) => some { s with vtlist := l, locked := false, isr := .callback [] }
  | .callback [] => some { s with locked := true, isr := .sweep }
  | .callback (.chBSemWait _ :: _) => none
  | .callback (i :: code) => some (execute ch { s with isr := .callback code } i)

/-- The callback goes on after the call it asked for. -/
def resume (x : σ) : Return → Option σ
  | .sent st =>
    match cb.req x with
    | .send _ => some (cb.sent x st)
    | _ => none
  | .read st line =>
    match cb.req x with
    | .read => some (cb.read x st line)
    | _ => none
  | .result v =>
    match cb.req x with
    | .call op => if op = .motorActive ∨ (motorCode op).isSome then none else some (cb.result x v)
    | _ => none

/-- A step of the machine. -/
def step (s : Sys σ) : Act → Option (Sys σ)
  | .command id args =>
    if s.isr = .idle then
      match s.thread with
      | .idle => some { s with thread := .callback (cb.start id args) }
      | _ => none
    else none
  | .thread => if s.isr = .idle then s.threadStep ch cb else none
  | .ret r =>
    if s.isr = .idle then
      match s.thread with
      | .callback x => (resume cb x r).map fun x => { s with thread := .callback x }
      | _ => none
    else none
  | .tick =>
    if s.isr = .idle ∧ s.locked = false then
      some { s with vtlist := s.vtlist.decrement, locked := true, isr := .sweep }
    else none
  | .isr => s.isrStep ch
  | .chVTSetI k time =>
    if s.locked = false ∧ .other k ∉ DeltaList.keys s.vtlist then
      some { s with vtlist := s.vtlist.chVTSetI (.other k) time }
    else none
  | .chVTResetI k =>
    if s.locked = false ∧ .other k ∈ DeltaList.keys s.vtlist then
      some { s with vtlist := s.vtlist.chVTResetI (.other k) }
    else none
  | .motorSetSpeed v =>
    if s.locked = false then
      some (if 25 ≤ v ∧ v ≤ 100 then { s with motorSpeed := (100 * v).toNat } else s)
    else none

end Sys

end RobotPws.Motor
