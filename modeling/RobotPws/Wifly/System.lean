import RobotPws.Lib.Runs
import RobotPws.Hal.Serial
import RobotPws.Wifly.Loop

/-!
# The wifly thread among interrupts and clients

`wifly_loop` with the calls it makes (`wifly_send`, `wifly_receive`, the
callback), the USART interrupt and the other threads, as one machine. A thread
step runs from one access to shared state to the next; a program point (`Pc`)
names the access that comes next and carries the locals that are live there.
An interrupt or a client's `chMsgSend` can come between any two steps.

Waiting calls: `chEvtWaitOne` waits at `sendWait` until event bit 1 is
pending, `chEvtWaitOneTimeout(1, MS2ST(1000))` waits at `recvSleep` until it is
or until the timer fires, and `chOQWriteTimeout` waits at `send` while the
output queue is full.

The buffer cells remember the number of the byte they came from and how many
receive errors had been reported when they were stored, and `answers`, `calls`
and `overflows` list what the clients and the callback were given and which
lines were discarded; nothing reads them.
-/

namespace RobotPws.Wifly

open RobotPws.Lib RobotPws.Kernel RobotPws.Hal

/-- A cell of `id` or `args`. -/
structure Cell where
  char : UInt8
  src : Option Nat
  epoch : Nat
  deriving DecidableEq, Repr

instance : CharCell Cell := ⟨Cell.char, ⟨0, none, 0⟩, rfl⟩

/-- The `int` returned by `sdGetTimeout`; `none` is `Q_TIMEOUT`. -/
def inOf : Option Rx → Int
  | some r => r.byte.toNat
  | none => -1

theorem inOf_lf {rx : Rx} (h : inOf (some rx) = chLf) : rx.byte = 10 := by
  have h10 : rx.byte.toNat = 10 := by
    simp only [inOf, chLf] at h
    omega
  exact UInt8.toNat_inj.1 h10

/-- The cell that value is stored as. -/
def cellOf (r : Option Rx) (epoch : Nat) : Cell := ⟨toChar (inOf r), r.map Rx.seq, epoch⟩

def wiflyElSize : Nat := 1024

/-- The locals of `wifly_receive`: `msg[0..i)` and `max_l`. -/
structure Recv where
  got : List UInt8
  maxL : Nat
  deriving DecidableEq, Repr

namespace Recv

def store (r : Recv) (inn : Int) : Recv :=
  if inn ≠ chCr ∧ inn ≠ chLf then { r with got := r.got ++ [toChar inn] } else r

/-- `i == max_l - 1`. -/
def full (r : Recv) : Bool := r.got.length == r.maxL - 1

end Recv

/-- Where `wifly_send` returns to. -/
inductive SendRet (σ : Type) where
  | release (thd : Nat)
  | overflow
  | reply
  | callback (x : σ)
  deriving DecidableEq, Repr

/-- Where `wifly_receive` returns to. -/
inductive RecvRet (σ : Type) where
  | release (thd : Nat)
  | callback (x : σ)
  deriving DecidableEq, Repr

/-- Where `chIQResetI` was called. -/
inductive ResetRet (σ : Type) where
  | overflow
  | error
  | receive (r : Recv) (ret : RecvRet σ)
  deriving DecidableEq, Repr

/-- Program points of the wifly thread. -/
inductive Pc (σ : Type) where
  /-- `chEvtRegisterMask` -/
  | register
  /-- `chThdYield` and the test for a pending message -/
  | top
  /-- `chMsgWait` -/
  | msgWait
  /-- `chEvtWaitOneTimeout(1, TIME_IMMEDIATE)` -/
  | evtWait
  /-- `chEvtGetAndClearFlags` in the loop -/
  | getFlags
  /-- `sdGetTimeout` in the loop -/
  | getByte
  /-- `wifly_rec_func(id, args)` -/
  | call
  /-- in the callback -/
  | callback (x : σ)
  /-- `sdWrite`, these bytes still to be written -/
  | send (msg : List UInt8) (ret : SendRet σ)
  /-- `chEvtWaitOne(1)` -/
  | sendWait (ret : SendRet σ)
  /-- `chEvtGetAndClearFlags` in `wifly_send` -/
  | sendFlags (ret : SendRet σ)
  /-- `sdGetTimeout` in the first loop of `wifly_receive` -/
  | drain (r : Recv) (ret : RecvRet σ)
  /-- `chEvtWaitOneTimeout(1, MS2ST(1000))` -/
  | recvWait (r : Recv) (ret : RecvRet σ)
  /-- suspended in it -/
  | recvSleep (r : Recv) (ret : RecvRet σ)
  /-- `chEvtGetAndClearFlags` in `wifly_receive` -/
  | recvFlags (r : Recv) (ret : RecvRet σ)
  /-- `sdGetTimeout` in the second loop of `wifly_receive` -/
  | recvGet (r : Recv) (ret : RecvRet σ)
  /-- `chMsgRelease` -/
  | release (thd : Nat) (st : State) (buf : List UInt8)
  /-- a store of `chIQResetI` -/
  | iqReset (k : QReset) (ret : ResetRet σ)
  /-- a store of `chOQResetI` -/
  | oqReset (k : QReset)
  deriving DecidableEq, Repr

/-- What `chMsgRelease` gave back to a client. -/
structure Answer where
  thd : Nat
  st : State
  buf : List UInt8
  deriving DecidableEq, Repr

structure Sys (σ : Type) where
  pc : Pc σ
  parser : Parser Cell
  sd : SerialDriver
  /-- The threads suspended in `chMsgSend` with the strings they sent. -/
  msgQueue : List (Nat × List UInt8)
  answers : List Answer
  /-- The cells of the strings `id` and `args` in each call of the callback. -/
  calls : List (List Cell)
  /-- The lines discarded, each answered with `*OVERFLOW*`. -/
  overflows : List (List Cell)

inductive Act where
  /-- the wifly thread -/
  | thread
  /-- the timer of `chEvtWaitOneTimeout` -/
  | timeout
  /-- the rest of the firmware answers the callback -/
  | result (v : Int)
  /-- the USART interrupt -/
  | usart (sr : SR) (dr : UInt8)
  /-- `chMsgSend(wifly_tp, str)` on another thread -/
  | client (thd : Nat) (str : List UInt8)

/-- A byte is received without an error. -/
def Act.rx (b : UInt8) : Act := .usart { rxne := true } b

/-- The transmitter takes a byte. -/
def Act.tx : Act := .usart { txe := true } 0

/-- The loop reads these bytes one at a time, each before the next arrives. -/
def Act.feed (bs : List UInt8) : List Act :=
  bs.flatMap fun b => [.rx b, .thread, .thread, .thread, .thread]

/-- The client whose message is being served. -/
def Pc.serving {σ : Type} : Pc σ → Option Nat
  | .send _ (.release thd) | .sendWait (.release thd) | .sendFlags (.release thd)
  | .drain _ (.release thd) | .recvWait _ (.release thd) | .recvSleep _ (.release thd)
  | .recvFlags _ (.release thd) | .recvGet _ (.release thd)
  | .iqReset _ (.receive _ (.release thd)) | .release thd _ _ => some thd
  | _ => none

namespace Sys

variable {ω σ : Type} (cb : ProtocolCallback ω σ)

/-- After `wiflyInit`: the driver is started, the thread has not run yet. -/
def init : Sys σ := ⟨.register, .init, .start, [], [], [], []⟩

/-- `wifly_send` has returned. -/
def sent (s : Sys σ) : SendRet σ → Sys σ
  | .release thd => { s with pc := .release thd .ok [] }
  | .overflow => { s with pc := .iqReset .wrptr .overflow }
  | .reply => { s with pc := .top, parser := s.parser.restart }
  | .callback x => { s with pc := .callback x }

/-- `wifly_send(msg)`. -/
def wifly_send (s : Sys σ) (msg : List UInt8) (ret : SendRet σ) : Sys σ :=
  if msg = [] then s.sent ret else { s with pc := .send msg ret }

/-- `wifly_receive` has returned `st`. -/
def received (s : Sys σ) (st : State) (r : Recv) : RecvRet σ → Sys σ
  | .release thd => { s with pc := .release thd st r.got }
  | .callback x => { s with pc := .callback (cb.read x st r.got) }

/-- `wifly_receive(msg, WIFLY_EL_SIZE)`. -/
def wifly_receive (s : Sys σ) (ret : RecvRet σ) : Sys σ :=
  { s with pc := .drain ⟨[], wiflyElSize⟩ ret }

/-- The branches of `wifly_receive` after a character; `again` is where its
loop continues. -/
def recvByte (s : Sys σ) (r : Recv) (inn : Int) (ret : RecvRet σ)
    (again : Recv → RecvRet σ → Pc σ) : Sys σ :=
  let r := r.store inn
  if r.full then { s with pc := .iqReset .wrptr (.receive r ret) }
  else if inn = chLf then s.received cb .ok r ret
  else { s with pc := again r ret }

/-- The branches of the loop on a verdict. -/
def act (s : Sys σ) : Verdict → Sys σ
  | .more => { s with pc := .top }
  | .overflow => s.wifly_send overflowMsg .overflow
  | .hello => s.wifly_send helloMsg .reply
  | .badStatus => s.wifly_send errorMsg .reply
  | .command => { s with pc := .call }

/-- The branches of the loop on the callback's result. -/
def finish (s : Sys σ) (ret : Message) : Sys σ :=
  if ret = .ok then s.wifly_send okMsg .reply
  else if ret ≠ .message then s.wifly_send errorMsg .reply
  else { s with pc := .top, parser := s.parser.restart }

/-- `chIQResetI` has returned. -/
def iqWasReset (s : Sys σ) : ResetRet σ → Sys σ
  | .overflow =>
    { s with pc := .top, parser := s.parser.restart, overflows := s.overflows ++ [s.parser.held] }
  | .error => { s with pc := .oqReset .wrptr }
  | .receive r ret => s.received cb .overflow r ret

/-- A step of the wifly thread; `none` where it waits. -/
def threadStep (s : Sys σ) : Option (Sys σ) :=
  match s.pc with
  | .register => some { s with pc := .top, parser := .init, sd := s.sd.chEvtRegisterMask }
  | .top =>
    if s.parser.i = 0 ∧ s.parser.j = 0 ∧ s.msgQueue ≠ [] then some { s with pc := .msgWait }
    else some { s with pc := .evtWait }
  | .msgWait =>
    match s.msgQueue with
    | [] => none
    | (thd, str) :: q =>
      let s := { s with msgQueue := q }
      if str = [] then some (s.wifly_receive (.release thd))
      else some (s.wifly_send str (.release thd))
  | .evtWait =>
    if s.sd.epending then some { s with pc := .getFlags, sd := { s.sd with epending := false } }
    else some { s with pc := .top }
  | .getFlags =>
    let flags := s.sd.chEvtGetAndClearFlags.1
    let s := { s with sd := s.sd.chEvtGetAndClearFlags.2 }
    if hasFlag flags chnInputAvailable then some { s with pc := .getByte }
    else if flags > 32 then some { s with pc := .iqReset .wrptr .error }
    else some { s with pc := .top }
  | .getByte =>
    let (rx, d) := s.sd.sdGetTimeout
    let (p, v) := s.parser.feed (inOf rx) (cellOf rx s.sd.errs)
    some (act { s with sd := d, parser := p } v)
  | .call =>
    some { s with
      pc := .callback (cb.start (cstring s.parser.id) (cstring s.parser.args))
      calls := s.calls ++ [s.parser.lineCells] }
  | .callback x =>
    match cb.req x with
    | .ret m => some (s.finish m)
    | .send msg =>
      if msg = [] then some { s with pc := .callback (cb.sent x .overflow) }
      else some (s.wifly_send msg (.callback (cb.sent x .ok)))
    | .read => some (s.wifly_receive (.callback x))
    | .call _ => none
  | .send msg ret =>
    match msg with
    | [] => none
    | b :: bs =>
      (s.sd.sdWriteByte b).map fun d =>
        { s with sd := d, pc := if bs = [] then .sendWait ret else .send bs ret }
  | .sendWait ret =>
    if s.sd.epending then
      some { s with pc := .sendFlags ret, sd := { s.sd with epending := false } }
    else none
  | .sendFlags ret =>
    let flags := s.sd.chEvtGetAndClearFlags.1
    let s := { s with sd := s.sd.chEvtGetAndClearFlags.2 }
    if hasFlag flags chnOutputEmpty then some (s.sent ret) else some { s with pc := .sendWait ret }
  | .drain r ret =>
    match s.sd.sdGetTimeout with
    | (none, d) => some { s with sd := d, pc := .recvWait r ret }
    | (some rx, d) => some (recvByte cb { s with sd := d } r (inOf (some rx)) ret .drain)
  | .recvWait r ret =>
    if s.sd.epending then
      some { s with pc := .recvFlags r ret, sd := { s.sd with epending := false } }
    else some { s with pc := .recvSleep r ret }
  | .recvSleep r ret =>
    if s.sd.epending then
      some { s with pc := .recvFlags r ret, sd := { s.sd with epending := false } }
    else none
  | .recvFlags r ret =>
    let flags := s.sd.chEvtGetAndClearFlags.1
    let s := { s with sd := s.sd.chEvtGetAndClearFlags.2 }
    if hasFlag flags chnInputAvailable then some { s with pc := .recvGet r ret }
    else if flags > 32 then some (s.received cb .error r ret)
    else some { s with pc := .recvWait r ret }
  | .recvGet r ret =>
    match s.sd.sdGetTimeout with
    | (none, d) => some (received cb { s with sd := d } .reset r ret)
    | (some rx, d) => some (recvByte cb { s with sd := d } r (inOf (some rx)) ret .recvWait)
  | .release thd st buf =>
    some { s with pc := .evtWait, answers := s.answers ++ [⟨thd, st, buf⟩] }
  | .iqReset k ret =>
    let s := { s with sd := s.sd.chIQResetI k }
    match k with
    | .wrptr => some { s with pc := .iqReset .rdptr ret }
    | .rdptr => some { s with pc := .iqReset .counter ret }
    | .counter => some (s.iqWasReset cb ret)
  | .oqReset k =>
    let s := { s with sd := s.sd.chOQResetI k }
    match k with
    | .wrptr => some { s with pc := .oqReset .rdptr }
    | .rdptr => some { s with pc := .oqReset .counter }
    | .counter => some { s with pc := .top }

/-- A step of the machine. -/
def step (s : Sys σ) : Act → Option (Sys σ)
  | .thread => s.threadStep cb
  | .timeout =>
    match s.pc with
    | .recvSleep r ret => if s.sd.epending then none else some (s.received cb .timeout r ret)
    | _ => none
  | .result v =>
    match s.pc with
    | .callback x =>
      match cb.req x with
      | .call _ => some { s with pc := .callback (cb.result x v) }
      | _ => none
    | _ => none
  | .usart sr dr => some { s with sd := s.sd.serveInterrupt sr dr }
  | .client thd str =>
    if s.pc.serving = some thd ∨ thd ∈ s.msgQueue.map Prod.fst then none
    else some { s with msgQueue := s.msgQueue ++ [(thd, str)] }

end Sys

end RobotPws.Wifly
