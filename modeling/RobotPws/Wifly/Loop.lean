import RobotPws.Wifly.Parser
import RobotPws.Wifly.Callback

/-!
# `wifly_loop` on a byte stream

The loop fed one byte per `CHN_INPUT_AVAILABLE` event, with a callback that
does not itself read the serial line: such a callback is a function of its own
state, the id and the arguments, giving the messages it sends and its result.

An overflow discards the bytes that are queued at that moment; how many these
are is a matter of timing, so it is an input here (`queued`, one number for
each overflow).
-/

namespace RobotPws.Wifly

open RobotPws.Lib

def helloMsg : List UInt8 := ascii "*HELLO*\r\n"
def okMsg : List UInt8 := ascii "*OK*\r\n"
def errorMsg : List UInt8 := ascii "*ERROR*\r\n"
def overflowMsg : List UInt8 := ascii "*OVERFLOW*\r\n"

/-- What the loop does that others see. -/
inductive Event where
  /-- `wifly_rec_func(id, args)` -/
  | call (id args : List UInt8)
  /-- a message the callback sends -/
  | message (msg : List UInt8)
  /-- a message the loop itself sends -/
  | reply (msg : List UInt8)
  deriving DecidableEq, Repr

/-- A callback that does not read the serial line. -/
def Callback (σ : Type) : Type := σ → List UInt8 → List UInt8 → σ × List (List UInt8) × Message

/-- The answer to the callback's result. -/
def answer (ret : Message) : List Event :=
  if ret = .ok then [.reply okMsg]
  else if ret ≠ .message then [.reply errorMsg]
  else []

structure LoopState (σ : Type) where
  env : σ
  parser : Parser UInt8
  /-- Bytes still to be discarded by the last reset of the input queue. -/
  skip : Nat
  /-- How many bytes are queued at each of the coming resets. -/
  queued : List Nat

section
variable {σ : Type} (f : Callback σ)

/-- Act on a verdict, the parser still holding the line. -/
def serve (env : σ) (p : Parser UInt8) : Verdict → σ × List Event
  | .more => (env, [])
  | .overflow => (env, [.reply overflowMsg])
  | .hello => (env, [.reply helloMsg])
  | .badStatus => (env, [.reply errorMsg])
  | .command =>
    let id := cstring p.id
    let args := cstring p.args
    let (env, sent, ret) := f env id args
    (env, .call id args :: sent.map .message ++ answer ret)

/-- One byte. -/
def feedByte (s : LoopState σ) (b : UInt8) : LoopState σ × List Event :=
  match s.skip with
  | k + 1 => ({ s with skip := k }, [])
  | 0 =>
    let (p, v) := s.parser.feed b.toNat b
    let (env, evs) := serve f s.env p v
    let s := { s with env := env, parser := p.next v }
    (if v = .overflow then { s with skip := s.queued.headD 0, queued := s.queued.tail } else s, evs)

/-- A byte stream: the state after it and everything done on the way. -/
def feedAll (s : LoopState σ) : List UInt8 → LoopState σ × List Event
  | [] => (s, [])
  | b :: bs =>
    let (s, evs) := feedByte f s b
    let (t, evs') := feedAll s bs
    (t, evs ++ evs')

theorem feedAll_append (s : LoopState σ) (bs cs : List UInt8) :
    feedAll f s (bs ++ cs) =
      ((feedAll f (feedAll f s bs).1 cs).1,
        (feedAll f s bs).2 ++ (feedAll f (feedAll f s bs).1 cs).2) := by
  induction bs generalizing s with
  | nil => simp [feedAll]
  | cons b bs ih => simp [feedAll, ih, List.append_assoc]

theorem feedByte_more {s : LoopState σ} {b : UInt8} {p : Parser UInt8} (h0 : s.skip = 0)
    (h : s.parser.feed b.toNat b = (p, .more)) : feedByte f s b = ({ s with parser := p }, []) := by
  obtain ⟨env, q, skip, queued⟩ := s
  subst h0
  simp only at h
  simp [feedByte, h, serve, Parser.next]

theorem feedByte_overflow {s : LoopState σ} {b : UInt8} {p : Parser UInt8} (h0 : s.skip = 0)
    (h : s.parser.feed b.toNat b = (p, .overflow)) :
    feedByte f s b = ({ s with
      parser := p.restart, skip := s.queued.headD 0, queued := s.queued.tail },
      [.reply overflowMsg]) := by
  obtain ⟨env, q, skip, queued⟩ := s
  subst h0
  simp only at h
  simp [feedByte, h, serve, Parser.next]

theorem feedByte_line {s : LoopState σ} {b : UInt8} {p : Parser UInt8} {v : Verdict}
    (h0 : s.skip = 0) (h : s.parser.feed b.toNat b = (p, v)) (hv : v ≠ .overflow) :
    feedByte f s b = ({ s with env := (serve f s.env p v).1, parser := p.next v },
      (serve f s.env p v).2) := by
  obtain ⟨env, q, skip, queued⟩ := s
  subst h0
  simp only at h
  simp [feedByte, h, hv]

end

end RobotPws.Wifly
