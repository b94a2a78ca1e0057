import RobotPws.Lib.CInt
import RobotPws.Wifly.Callback

/-!
# The callback of `main.c`

`callback` as a `ProtocolCallback`: `start` is its chain of comparisons, up to
the first call it makes, and a `Point` is what is left to do from there. The
calls into the rest of the firmware are `Op`s.
-/

namespace RobotPws.Main

open RobotPws.Lib RobotPws.Wifly

inductive Led where
  | led4
  | led5
  deriving DecidableEq, Repr

/-- The calls `callback` makes outside `serv_wifly`. -/
inductive Op where
  | palTogglePad (led : Led)
  | motorActive
  | motorForwardS (milli : Int)
  | motorBackwardS (milli : Int)
  | motorLeftForwardS (milli : Int)
  | motorRightForwardS (milli : Int)
  | sonarStart
  | sonarStop
  | getHeading
  | sonarDistance
  | chThdSleepMilliseconds (msec : Nat)
  deriving DecidableEq, Repr

/-- The four commands that drive the motors. -/
inductive Drive where
  | forward
  | backward
  | turnLeft
  | turnRight
  deriving DecidableEq, Repr

namespace Drive

def id : Drive → List UInt8
  | forward => ascii "forward"
  | backward => ascii "backward"
  | turnLeft => ascii "turnLeft"
  | turnRight => ascii "turnRight"

def op : Drive → Int → Op
  | forward => .motorForwardS
  | backward => .motorBackwardS
  | turnLeft => .motorLeftForwardS
  | turnRight => .motorRightForwardS

end Drive

/-- What is left of a call of `callback`. -/
inductive Point where
  /-- return `m` -/
  | done (m : Message)
  /-- call `op`, return `m` -/
  | act (op : Op) (m : Message)
  /-- `motorActive()` and what depends on it -/
  | drive (d : Drive) (sec : Int)
  /-- `wiflySend(itoa(op()))`, return `M_MESSAGE` -/
  | query (op : Op)
  /-- `wiflySend(msg)`, return `m` -/
  | say (msg : List UInt8) (m : Message)
  /-- `wiflySendCommand` up to the loop over the answer -/
  | command (todo : List (Req Op))
  /-- the loop over the answer -/
  | answer
  /-- after the loop -/
  | exit (todo : List (Req Op))
  deriving DecidableEq, Repr

/-- `itoa`: four digits, as long as `getal` has no more. -/
def itoa (getal : Int) : List UInt8 :=
  [toDigit (getal.tdiv 1000), toDigit ((getal.tmod 1000).tdiv 100),
    toDigit ((getal.tmod 100).tdiv 10), toDigit (getal.tmod 10), 13, 10]
where
  toDigit (v : Int) : UInt8 := UInt8.ofNat ((v + 48) % 256).toNat

/-- The characters of a C string: those before the first terminator. -/
def cText (s : List UInt8) : List UInt8 := s.takeWhile (· != 0)

/-- `wiflyReadCommand(cmd, total)` up to its loop. -/
def commandStart (cmd : List UInt8) : List (Req Op) :=
  [.send (ascii "***COMMAND - "), .send cmd, .send (ascii " - ***\r\n"),
    .call (.chThdSleepMilliseconds 100), .send (ascii "$$$"), .read, .read,
    .send cmd, .send (ascii "\r\n"), .read]

/-- `wiflyReadCommand` after its loop. -/
def commandEnd : List (Req Op) := [.send (ascii "exit\r\n"), .read, .read]

/-- The command that drives the motors as `d`. -/
def startDrive (d : Drive) (args : List UInt8) : Point :=
  let sec := atoi args
  if sec = 0 then .done .error else .drive d sec

/-- `callback(id, args)` up to its first call. -/
def start (id args : List UInt8) : Point :=
  if id = ascii "version" then .say (ascii "CHIBIOS-STM32DISCOVERY v0.1\r\n") .message
  else if id = ascii "light" then
    let ck := atoi args
    if ck = 1 then .act (.palTogglePad .led4) .ok
    else if ck = 2 then .act (.palTogglePad .led5) .ok
    else .done .error
  else if id = Drive.forward.id then startDrive .forward args
  else if id = Drive.backward.id then startDrive .backward args
  else if id = Drive.turnLeft.id then startDrive .turnLeft args
  else if id = Drive.turnRight.id then startDrive .turnRight args
  else if id = ascii "close" then .command (commandStart (ascii "close"))
  else if id = ascii "sonar" then
    let on := atoi args
    if on = 1 then .act .sonarStart .ok
    else if on = 0 then .act .sonarStop .ok
    else .done .ok
  else if id = ascii "readHead" then .query .getHeading
  else if id = ascii "readSonar" then .query .sonarDistance
  else .done .error

namespace Point

def req : Point → Req Op
  | done m => .ret m
  | act op _ => .call op
  | drive _ _ => .call .motorActive
  | query op => .call op
  | say msg _ => .send msg
  | command (r :: _) => r
  | command [] | answer => .read
  | exit (r :: _) => r
  | exit [] => .ret .ok

/-- The next request of `wiflySendCommand`; its result is not looked at. -/
def next : Point → Point
  | command (_ :: r :: todo) => .command (r :: todo)
  | command _ => .answer
  | exit (_ :: todo) => .exit todo
  | p => p

def sent : Point → State → Point
  | say _ m, _ => .done m
  | p, _ => p.next

/-- `wiflyRead` returned: only the loop over the answer looks at the line. -/
def read : Point → State → List UInt8 → Point
  | answer, st, line =>
    -- `buf[0]` is the terminator when the line is empty
    if st = .ok ∧ line.headD 0 ≠ 60 then .answer else .exit commandEnd
  | p, _, _ => p.next

def result : Point → Int → Point
  | act _ m, _ => .done m
  | drive d sec, active =>
    if active ≠ 0 then .done .error else .act (d.op (wrap32 (sec * 1000))) .ok
  | query _, v => .say (cText (itoa v)) .message
  | p, _ => p.next

end Point

def callback : ProtocolCallback Op Point := ⟨start, Point.req, Point.sent, Point.read, Point.result⟩

theorem start_drive (d : Drive) (args : List UInt8) : start d.id args = startDrive d args := by
  cases d <;> simp only [start] <;> rfl

end RobotPws.Main
