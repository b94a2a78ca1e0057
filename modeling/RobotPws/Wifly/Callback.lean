import Mathlib.Tactic.Common

/-!
# Protocol callbacks

`wifly_rec_func` runs on the wifly thread. What matters to the rest of the
thread is which serial calls it makes and what it returns: `ProtocolCallback`
is a callback as a machine over its own program points `σ`. At each point it
asks for one thing (`Req`) and goes on with the answer. `callback` of
`main.c` is one of them.
-/

namespace RobotPws.Wifly

/-- `State` of `serv_wifly.h`. -/
inductive State where
  | ok
  | error
  | overflow
  | timeout
  | reset
  deriving DecidableEq, Repr

/-- `Message` of `serv_wifly.h`. -/
inductive Message where
  | ok
  | error
  | message
  deriving DecidableEq, Repr

/-- What a running callback asks for next. -/
inductive Req (ω : Type) where
  /-- return -/
  | ret (m : Message)
  /-- `wiflySend(msg)` -/
  | send (msg : List UInt8)
  /-- `wiflyRead(buf)` -/
  | read
  /-- a call to another part of the firmware, which answers with an `int` -/
  | call (op : ω)
  deriving DecidableEq, Repr

/-- A callback over program points `σ`, calling operations `ω` of the rest of
the firmware. -/
structure ProtocolCallback (ω σ : Type) where
  start : List UInt8 → List UInt8 → σ
  req : σ → Req ω
  /-- `wiflySend` returned. -/
  sent : σ → State → σ
  /-- `wiflyRead` returned, with the line in the buffer. -/
  read : σ → State → List UInt8 → σ
  /-- The other operation returned. -/
  result : σ → Int → σ

end RobotPws.Wifly
